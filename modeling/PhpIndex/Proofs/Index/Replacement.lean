import PhpIndex.Proofs.Index.History

/-!
# Single replacements

A replacement clears all rows whose keys are led by the name of its document, whatever names and
texts the store holds, and enters those of the version. It succeeds as long as all declarations in
the store can be read, which is so after any run whose symbols fit into their records, since every
row of the store is one that some version of the run entered.
Main statements: `Store.get?_led`, `Store.entered_of_runAll`, `Rows.Legible.exists_run_replace`.
-/
namespace PhpIndex

/-! ## What a replacement leaves under the name of its document -/

/-- Whether the removal of a document clears the key whatever was read before. -/
def IndexPart.Led (uri : String) : IndexPart → Bytes → Prop
  | declarations _, k => joinKey [uri, ""] <+: k
  | names _, _ => False
  | words _, _ => False
  | references, k => Key.ofText uri <+: k
  | scopes, k => Key.ofText uri <+: k
  | documents, k => k = Bytes.ofText uri

namespace Store
variable {s s' : Store} {v : Version}

/-- A removal that succeeds has read the declarations of every kind. -/
theorem exists_old_of_run_removal {rows : Rows} {uri : String} {batch : Batch}
    (h : (Index.removal uri).run rows = .ok batch) : ∃ old : TableKind → List Symbol,
      (∀ kind, (Index.symbolsOfKind uri kind).run rows = .ok (old kind)) ∧
      batch = (TableKind.all.flatMap fun kind => (KindTables.of kind).deleteAll uri (old kind)) ++
        [referenceTable.deleteAll uri, scopeTable.deleteAll uri, documentTable.delete uri] := by
  let kindRemoval (kind : TableKind) : Query Batch := do
    let old ← Index.symbolsOfKind uri kind
    pure ((KindTables.of kind).deleteAll uri old)
  obtain ⟨batches, hall, hrest⟩ :=
    bind_eq_ok ((Query.run_bind rows (Query.forEach kindRemoval TableKind.all) _).symm.trans h)
  have hkind (kind : TableKind) : ∃ old, (Index.symbolsOfKind uri kind).run rows = .ok old := by
    have hmem : kind ∈ TableKind.all := by cases kind <;> decide
    rw [Query.run_forEach] at hall
    obtain ⟨b, -, hb⟩ := exists_right_of_forall₂ (forall₂_of_mapM_eq_ok hall) hmem
    obtain ⟨old, hold, -⟩ :=
      bind_eq_ok ((Query.run_bind rows (Index.symbolsOfKind uri kind) _).symm.trans hb)
    exact ⟨old, hold⟩
  choose old hold using hkind
  have hbatches := Query.run_forEach_eq_map rows (l := TableKind.all) (f := kindRemoval)
    (g := fun kind => (KindTables.of kind).deleteAll uri (old kind))
    fun kind _ => Query.run_bind_eq_ok rows (hold kind)
  obtain rfl := Except.ok.inj (hbatches.symm.trans hall)
  refine ⟨old, hold, ?_⟩
  rw [List.flatMap_def]
  exact (Except.ok.inj hrest).symm

/-- The removal of a document enters no row and clears the keys that are led by its name. -/
theorem of_run_removal {rows : Rows} {uri : String} {batch : Batch}
    (h : (Index.removal uri).run rows = .ok batch) :
    (∀ c ∈ batch, c.isPut = false) ∧
      ∀ (p : IndexPart) (k : Bytes), p.Led uri k → ∃ c ∈ batch, c.Touches (p.table.key k) := by
  obtain ⟨old, -, rfl⟩ := exists_old_of_run_removal h
  refine ⟨fun c hc => ?_, fun p k hk => ?_⟩
  · rcases List.mem_append.1 hc with hc | hc
    · obtain ⟨kind, -, hc⟩ := List.mem_flatMap.1 hc
      rcases List.mem_append.1 hc with hc | hc
      · obtain ⟨t, -, hc⟩ := List.mem_flatMap.1 hc
        rcases List.mem_cons.1 hc with rfl | hc
        · rfl
        · obtain ⟨word, -, rfl⟩ := List.mem_map.1 hc
          rfl
      · obtain rfl := List.mem_singleton.1 hc
        rfl
    · simp only [List.mem_cons, List.not_mem_nil, or_false] at hc
      rcases hc with rfl | rfl | rfl <;> rfl
  · cases p with
    | declarations kind =>
      refine ⟨(KindTables.of kind).declarations.deleteAll uri, List.mem_append_left _ ?_,
        IndexPart.touches_deleteAll (.declarations kind) hk⟩
      exact List.mem_flatMap.2 ⟨kind, by cases kind <;> decide,
        List.mem_append_right _ List.mem_cons_self⟩
    | names kind => exact hk.elim
    | words kind => exact hk.elim
    | references =>
      exact ⟨referenceTable.deleteAll uri, List.mem_append_right _ (by simp),
        IndexPart.touches_deleteAll .references hk⟩
    | scopes =>
      exact ⟨scopeTable.deleteAll uri, List.mem_append_right _ (by simp),
        IndexPart.touches_deleteAll .scopes hk⟩
    | documents =>
      obtain rfl := hk
      exact ⟨documentTable.delete uri, List.mem_append_right _ (by simp), rfl⟩

/-- A replacement that succeeds removes the old rows and then enters those of the version. -/
theorem exists_of_run_replace (h : (Operation.replace v).run s = .ok s') :
    ∃ batch, (Index.removal v.uri).run s.rows = .ok batch ∧
      s'.rows = (s.rows.apply batch).apply v.puts := by
  simp only [Operation.run, Store.replaceDocument] at h
  cases hbatch : (Index.removal v.uri).run s.rows with
  | error e =>
    have hfail : (Index.replacement v.record v.symbols v.references v.scopes).run s.rows =
        .error e := by
      rw [Index.replacement, Query.run_bind, show (Index.removal v.record.uri).run s.rows = _
        from hbatch]
      rfl
    rw [hfail] at h
    cases h
  | ok batch =>
    rw [Holds.run_replacement v hbatch] at h
    cases h
    exact ⟨batch, rfl, by rw [rows_apply, Rows.apply_append]⟩

/-- After a replacement the rows that are led by the name of the document are those of the
version. -/
theorem get?_led (h : (Operation.replace v).run s = .ok s') {p : IndexPart} {k : Bytes}
    (hk : p.Led v.uri k) : s'.rows.get? (p.table.key k) = v.rows.get? (p.table.key k) := by
  obtain ⟨batch, hbatch, hrows⟩ := exists_of_run_replace h
  obtain ⟨hremovals, hclear⟩ := of_run_removal hbatch
  rw [hrows, Rows.get?_apply_puts (fun _ => Version.isPut_of_mem_puts),
    Rows.get?_apply_removals hremovals, if_pos (hclear p k hk), Option.or_none]
  rfl

/-- After a replacement all rows of the version stand. -/
theorem get?_of_rows (h : (Operation.replace v).run s = .ok s') {key value : Bytes}
    (hrow : v.rows.get? key = some value) : s'.rows.get? key = some value := by
  obtain ⟨batch, -, hrows⟩ := exists_of_run_replace h
  rw [hrows, Rows.get?_apply_puts (fun _ => Version.isPut_of_mem_puts)]
  exact Option.or_eq_some_iff.2 (.inl hrow)

end Store

/-! ## Where the rows of a store come from -/

namespace Store
variable {s s' : Store} {p : IndexPart} {k value : Bytes}

theorem exists_of_run_remove {uri : String} (h : (Operation.remove uri).run s = .ok s') :
    ∃ batch, (Index.removal uri).run s.rows = .ok batch ∧ s'.rows = s.rows.apply batch := by
  simp only [Operation.run, Store.removeDocument] at h
  cases hrecord : (Index.document uri).run s.rows with
  | error e =>
    rw [hrecord] at h
    cases h
  | ok record? =>
    cases hbatch : (Index.removal uri).run s.rows with
    | error e =>
      rw [hrecord, hbatch] at h
      cases h
    | ok batch =>
      rw [hrecord, hbatch] at h
      cases h
      exact ⟨batch, rfl, rows_apply s batch⟩

/-- What a removal leaves was there before. -/
theorem get?_of_apply_removal {rows : Rows} {uri : String} {batch : Batch}
    (hbatch : (Index.removal uri).run rows = .ok batch) {key : Bytes}
    (h : (rows.apply batch).get? key = some value) : rows.get? key = some value := by
  rcases Rows.put_mem_of_get?_apply h with hput | hold
  · have hisPut : (Change.put key value).isPut = true := rfl
    rw [(of_run_removal hbatch).1 _ hput] at hisPut
    cases hisPut
  · exact hold

/-- A row after an operation is one that its version enters, or was there before. -/
theorem entered_of_run {op : Operation} (hrun : op.run s = .ok s')
    (h : s'.rows.get? (p.table.key k) = some value) :
    (∃ v, op = .replace v ∧ v.Enters p k value) ∨ s.rows.get? (p.table.key k) = some value := by
  cases op with
  | replace v =>
    obtain ⟨batch, hbatch, hrows⟩ := exists_of_run_replace hrun
    rw [hrows] at h
    rcases Rows.put_mem_of_get?_apply h with hput | hold
    · obtain ⟨q, j, value', heq, henters⟩ := Version.mem_puts.1 hput
      obtain ⟨hkey, rfl⟩ := Change.put.inj heq
      obtain ⟨rfl, rfl⟩ := IndexPart.key_inj hkey
      exact .inl ⟨v, rfl, henters⟩
    · exact .inr (get?_of_apply_removal hbatch hold)
  | remove uri =>
    obtain ⟨batch, hbatch, hrows⟩ := exists_of_run_remove hrun
    rw [hrows] at h
    exact .inr (get?_of_apply_removal hbatch h)

/-- A row after a run is one that a version of the run enters, or was there before. -/
theorem entered_of_runAll {ops : List Operation} (hrun : s.runAll ops = .ok s')
    (h : s'.rows.get? (p.table.key k) = some value) :
    (∃ v, .replace v ∈ ops ∧ v.Enters p k value) ∨
      s.rows.get? (p.table.key k) = some value := by
  induction ops generalizing s with
  | nil =>
    cases hrun
    exact .inr h
  | cons op rest ih =>
    obtain ⟨s₁, hfirst, hrest⟩ := bind_eq_ok hrun
    rcases ih hrest with ⟨v, hv, henters⟩ | hold
    · exact .inl ⟨v, List.mem_cons_of_mem op hv, henters⟩
    · rcases entered_of_run hfirst hold with ⟨v, rfl, henters⟩ | hold
      · exact .inl ⟨v, List.mem_cons_self, henters⟩
      · exact .inr hold

end Store

/-! ## When a replacement succeeds -/

/-- Whether every declaration in the rows can be read. -/
def Rows.Legible (rows : Rows) : Prop :=
  ∀ kind k value, rows.get? ((IndexPart.declarations kind).table.key k) = some value →
    ∃ t : Symbol, ofRecord value = .ok t

/-- Whether the symbols that the operation enters fit into their records. -/
def Operation.Fits : Operation → Prop
  | .replace v => ∀ t ∈ v.symbols, t.Fits
  | .remove _ => True

instance : DecidablePred Operation.Fits
  | .replace v => inferInstanceAs (Decidable (∀ t ∈ v.symbols, t.Fits))
  | .remove _ => inferInstanceAs (Decidable True)

namespace Rows.Legible
variable {rows : Rows} {s s' : Store}

theorem empty : Rows.Legible .empty := nofun

/-- Declarations stay legible if those that are entered are. -/
theorem runAll (h : s.rows.Legible) {ops : List Operation} (hops : ∀ op ∈ ops, op.Fits)
    (hrun : s.runAll ops = .ok s') : s'.rows.Legible := by
  intro kind k value hget
  rcases Store.entered_of_runAll hrun hget with ⟨v, hv, t, ht, -, -, rfl⟩ | hold
  · exact ⟨t.normal, ofRecord_symbol (hops _ hv t ht)⟩
  · exact h kind k value hold

/-- Declarations are read one by one, so a document whose declarations are legible is removed. -/
theorem run_removal (h : rows.Legible) (uri : String) :
    ∃ batch, (Index.removal uri).run rows = .ok batch := by
  have hsymbols (kind : TableKind) : ∃ old, (Index.symbolsOfKind uri kind).run rows = .ok old := by
    have hread : ∀ row ∈ rows.scan ((IndexPart.declarations kind).table.key (joinKey [uri, ""])),
        ∃ t, ofRecord (α := Symbol) row.2 = .ok t := by
      intro row hrow
      obtain ⟨k, -, -, hget⟩ := IndexPart.mem_scan.1 hrow
      exact h kind k row.2 hget
    obtain ⟨old, hold, -⟩ := mapM_eq_ok hread
    exact ⟨old, Index.run_symbolsOfKind_iff.2 hold⟩
  choose old hold using hsymbols
  have hbatches := Query.run_forEach_eq_map rows (l := TableKind.all) (f := fun kind => do
      let old ← Index.symbolsOfKind uri kind
      pure ((KindTables.of kind).deleteAll uri old))
    (g := fun kind => (KindTables.of kind).deleteAll uri (old kind))
    fun kind _ => Query.run_bind_eq_ok rows (hold kind)
  exact ⟨_, Query.run_bind_eq_ok rows hbatches⟩

theorem exists_run_replace (h : s.rows.Legible) (v : Version) :
    ∃ s', (Operation.replace v).run s = .ok s' := by
  obtain ⟨batch, hbatch⟩ := h.run_removal v.uri
  refine ⟨s.apply (batch ++ v.puts), ?_⟩
  simp only [Operation.run, Store.replaceDocument, Holds.run_replacement v hbatch]
  rfl

end Rows.Legible

end PhpIndex
