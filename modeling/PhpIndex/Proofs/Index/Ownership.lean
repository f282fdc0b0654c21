import PhpIndex.Proofs.Index.Replacement

/-!
# Rows of other documents

An operation on a document changes rows under the keys of this document only. The document can be
told from the key as long as it has no zero characters, whatever the names of its symbols are. A
word stands in front of the document in its key, so rows of words can be told apart only if names
have no zero characters either.
Main statements: `IndexPart.Owns.unique`, `Store.get?_of_run`, `Version.Recorded.run_document`.
-/
namespace PhpIndex

namespace IndexPart

/-- The keys of a document, whatever the names of its symbols are except in rows of words. -/
def Owns (uri : String) : IndexPart → Bytes → Prop
  | declarations _, k => joinKey [uri, ""] <+: k
  | names _, k => ∃ name, k = joinKey [name, uri]
  | words kind, k => HasKey uri (words kind) k
  | references, k => Key.ofText uri <+: k
  | scopes, k => Key.ofText uri <+: k
  | documents, k => k = Bytes.ofText uri

def IsWords : IndexPart → Prop
  | words _ => True
  | _ => False

/-- Whether the keys of the table start with the document in a form that holds any text. -/
def OfRecords : IndexPart → Prop
  | references | scopes | documents => True
  | declarations _ | names _ | words _ => False

theorem Owns.led {p : IndexPart} (hp : p.OfRecords) {uri : String} {k : Bytes}
    (h : p.Owns uri k) : p.Led uri k := by
  cases p with
  | references => exact h
  | scopes => exact h
  | documents => exact h
  | _ => exact hp.elim

theorem Owns.unique_ofRecords {p : IndexPart} (hp : p.OfRecords) {uri uri' : String} {k : Bytes}
    (h : p.Owns uri k) (h' : p.Owns uri' k) : uri = uri' := by
  cases p with
  | references => exact Key.eq_of_ofText_prefix h h'
  | scopes => exact Key.eq_of_ofText_prefix h h'
  | documents => exact Bytes.ofText_inj (h.symm.trans h')
  | _ => exact hp.elim

/-- A key belongs to one document only. -/
theorem Owns.unique {uri uri' : String} (hu : NulFree uri) (hu' : NulFree uri') {p : IndexPart}
    {k : Bytes} (h : p.Owns uri k) (h' : p.Owns uri' k) : uri = uri' := by
  have hz := Bytes.zero_not_mem hu
  have hz' := Bytes.zero_not_mem hu'
  cases p with
  | declarations kind =>
    unfold Owns at h h'
    rw [joinKey_pair] at h h'
    rcases List.prefix_or_prefix_of_prefix h h' with hbegins | hbegins
    · exact Bytes.ofText_inj (cut_separator hz hz' hbegins).1
    · exact (Bytes.ofText_inj (cut_separator hz' hz hbegins).1).symm
  | names kind =>
    obtain ⟨name, rfl⟩ := h
    obtain ⟨name', heq⟩ := h'
    -- The document is what follows the last zero.
    have hreverse := congrArg List.reverse heq
    rw [joinKey_pair, joinKey_pair, List.reverse_append, List.reverse_append, List.reverse_cons,
      List.reverse_cons, List.append_assoc, List.append_assoc, List.singleton_append,
      List.singleton_append] at hreverse
    have hlast := (cut_separator_eq (fun h => hz (List.mem_reverse.1 h))
      (fun h => hz' (List.mem_reverse.1 h)) hreverse).1
    exact Bytes.ofText_inj (List.reverse_injective hlast)
  | words kind => exact HasKey.unique hu hu' (p := .words kind) h h'
  | references => exact Owns.unique_ofRecords (p := references) trivial h h'
  | scopes => exact Owns.unique_ofRecords (p := scopes) trivial h h'
  | documents => exact Owns.unique_ofRecords (p := documents) trivial h h'

end IndexPart

/-- Whether the names of all declarations in the rows have no zero characters. -/
def Rows.Plain (rows : Rows) : Prop :=
  ∀ kind k value t, rows.get? ((IndexPart.declarations kind).table.key k) = some value →
    ofRecord value = .ok t → Symbol.Plain t

/-- Whether the symbols that the operation enters have names without zero characters, and are read
back as they are. -/
def Operation.Plain : Operation → Prop
  | .replace v => ∀ t ∈ v.symbols, t.Fits ∧ t.Plain
  | .remove _ => True

instance : DecidablePred Operation.Plain
  | .replace v => inferInstanceAs (Decidable (∀ t ∈ v.symbols, t.Fits ∧ t.Plain))
  | .remove _ => inferInstanceAs (Decidable True)

/-- The symbols that the operation enters. -/
def Operation.symbols : Operation → List Symbol
  | .replace v => v.symbols
  | .remove _ => []

theorem Operation.Plain.symbols {op : Operation} (h : op.Plain) : ∀ t ∈ op.symbols, t.Plain := by
  cases op with
  | replace v => exact fun t ht => (h t ht).2
  | remove uri => exact List.forall_mem_nil _

theorem Rows.Plain.empty : Rows.Plain .empty := fun _ _ _ _ hrow => by cases hrow

theorem Symbol.plain_normal {t : Symbol} : t.normal.Plain ↔ t.Plain := by
  rw [Plain, Plain, name_normal, scope?_normal]

namespace IndexPart
variable {p : IndexPart} {k : Bytes}

theorem owns_of_word {uri name word : String} {kind : TableKind} {t : Symbol} (ht : t.Plain)
    (hword : word ∈ Words.indexed t.completionWord) :
    (words kind).Owns uri (CompletionIndex.key (t.scope?.getD "") word uri name) :=
  ⟨_, word, name, ht.scope, Words.nulFree_of_mem_indexed ht.completionWord hword, rfl⟩

/-- The rows of a version are its document's. -/
theorem owns_of_enters {v : Version} (hv : p.IsWords → ∀ t ∈ v.symbols, t.Plain) {value : Bytes}
    (h : v.Enters p k value) : p.Owns v.uri k := by
  cases p with
  | declarations kind =>
    obtain ⟨s, -, -, rfl, -⟩ := h
    rw [Owns, joinKey_pair, joinKey_pair]
    exact ⟨Bytes.ofText s.indexName, by simp⟩
  | names kind =>
    obtain ⟨s, -, -, rfl, -⟩ := h
    exact ⟨s.indexName, rfl⟩
  | words kind =>
    obtain ⟨s, hs, -, word, hword, rfl, -⟩ := h
    exact owns_of_word (hv trivial s hs) hword
  | references =>
    obtain ⟨i, range, r, -, rfl, -⟩ := h
    exact ofText_prefix_key v.uri range (.ofNat i)
  | scopes =>
    obtain ⟨i, range, scope, -, -, rfl, -⟩ := h
    exact ofText_prefix_key v.uri range (.ofNat i)
  | documents => exact h.1

end IndexPart

/-- What is read of the declarations of a document stands in the rows. -/
theorem Index.exists_row_of_symbolsOfKind {rows : Rows} {uri : String} {kind : TableKind}
    {old : List Symbol} (h : (Index.symbolsOfKind uri kind).run rows = .ok old) {t : Symbol}
    (ht : t ∈ old) : ∃ k value, rows.get? ((IndexPart.declarations kind).table.key k) =
      some value ∧ ofRecord value = .ok t := by
  have hall := forall₂_of_mapM_eq_ok (run_symbolsOfKind_iff.1 h)
  obtain ⟨row, hrow, hdecode⟩ := exists_left_of_forall₂ hall ht
  obtain ⟨k, -, -, hget⟩ := IndexPart.mem_scan.1 hrow
  exact ⟨k, row.2, hget, hdecode⟩

/-- Whether the names of all symbols that are read of the document have no zero characters. -/
def Rows.PlainOf (uri : String) (rows : Rows) : Prop :=
  ∀ kind old, (Index.symbolsOfKind uri kind).run rows = .ok old → ∀ t ∈ old, Symbol.Plain t

instance (uri : String) : DecidablePred (Rows.PlainOf uri) := fun rows =>
  decidable_of_iff (∀ kind ∈ TableKind.all,
      ∀ old ∈ ((Index.symbolsOfKind uri kind).run rows).toOption, ∀ t ∈ old, Symbol.Plain t) <| by
    refine ⟨fun h kind old hold => ?_, fun h kind _ old hold => h kind old ?_⟩
    · have hkind : kind ∈ TableKind.all := by cases kind <;> decide
      exact h kind hkind old (by rw [hold]; rfl)
    · cases hrun : (Index.symbolsOfKind uri kind).run rows with
      | error e =>
        rw [hrun] at hold
        cases hold
      | ok found =>
        rw [hrun] at hold
        cases hold
        rfl

theorem Rows.Plain.plainOf {rows : Rows} (h : rows.Plain) (uri : String) : rows.PlainOf uri := by
  intro kind old hold t ht
  obtain ⟨k, value, hget, hread⟩ := Index.exists_row_of_symbolsOfKind hold ht
  exact h kind k value t hget hread

namespace Store
variable {s s' : Store} {p : IndexPart} {k : Bytes} {uri : String}

/-- The removal of a document touches its own keys. -/
theorem owns_of_touches_removal {rows : Rows} {batch : Batch}
    (h : (Index.removal uri).run rows = .ok batch) (hrows : p.IsWords → rows.PlainOf uri)
    {c : Change}
    (hc : c ∈ batch) (htouches : c.Touches (p.table.key k)) : p.Owns uri k := by
  obtain ⟨old, hold, rfl⟩ := exists_old_of_run_removal h
  rcases List.mem_append.1 hc with hc | hc
  · obtain ⟨kind, -, hc⟩ := List.mem_flatMap.1 hc
    rcases List.mem_append.1 hc with hc | hc
    · obtain ⟨t, ht, hc⟩ := List.mem_flatMap.1 hc
      rcases List.mem_cons.1 hc with rfl | hc
      · obtain ⟨rfl, rfl⟩ := IndexPart.key_inj (q := .names kind) htouches
        exact ⟨t.indexName, rfl⟩
      · obtain ⟨word, hword, rfl⟩ := List.mem_map.1 hc
        obtain ⟨rfl, rfl⟩ := IndexPart.key_inj (q := .words kind) htouches
        exact IndexPart.owns_of_word (hrows trivial kind (old kind) (hold kind) t ht) hword
    · obtain rfl := List.mem_singleton.1 hc
      obtain ⟨rfl, hk⟩ := (IndexPart.key_prefix_iff (p := .declarations kind)).1 htouches
      exact hk
  · simp only [List.mem_cons, List.not_mem_nil, or_false] at hc
    rcases hc with rfl | rfl | rfl
    · obtain ⟨rfl, hk⟩ := (IndexPart.key_prefix_iff (p := .references)).1 htouches
      exact hk
    · obtain ⟨rfl, hk⟩ := (IndexPart.key_prefix_iff (p := .scopes)).1 htouches
      exact hk
    · obtain ⟨rfl, hk⟩ := IndexPart.key_inj (q := .documents) htouches
      exact hk

/-- An operation leaves all rows that are not under the keys of its document. -/
theorem get?_of_run {op : Operation} (hrun : op.run s = .ok s') (hk : ¬ p.Owns op.uri k)
    (hplain : p.IsWords → s.rows.Plain ∧ op.Plain) :
    s'.rows.get? (p.table.key k) = s.rows.get? (p.table.key k) := by
  have hremoved {batch : Batch} (hbatch : (Index.removal op.uri).run s.rows = .ok batch) :
      ∀ c ∈ batch, ¬ c.Touches (p.table.key k) := fun c hc htouches =>
    hk (owns_of_touches_removal hbatch (fun hp => (hplain hp).1.plainOf op.uri) hc htouches)
  cases op with
  | replace v =>
    obtain ⟨batch, hbatch, hrows⟩ := exists_of_run_replace hrun
    have hputs : ∀ c ∈ v.puts, ¬ c.Touches (p.table.key k) := by
      intro c hc htouches
      obtain ⟨q, j, value, rfl, henters⟩ := Version.mem_puts.1 hc
      obtain ⟨rfl, rfl⟩ := IndexPart.key_inj htouches
      exact hk (IndexPart.owns_of_enters (fun hp t ht => ((hplain hp).2 t ht).2) henters)
    rw [hrows, Rows.get?_apply_of_not_touches hputs,
      Rows.get?_apply_of_not_touches (hremoved hbatch)]
  | remove uri' =>
    obtain ⟨batch, hbatch, hrows⟩ := exists_of_run_remove hrun
    rw [hrows, Rows.get?_apply_of_not_touches (hremoved hbatch)]

/-- The records of a document stay while others are replaced or removed. -/
theorem get?_of_runAll_others {ops : List Operation} (hrun : s.runAll ops = .ok s')
    (hne : ∀ op ∈ ops, op.uri ≠ uri) (hp : p.OfRecords) (hk : p.Owns uri k) :
    s'.rows.get? (p.table.key k) = s.rows.get? (p.table.key k) := by
  induction ops generalizing s with
  | nil =>
    cases hrun
    rfl
  | cons op rest ih =>
    obtain ⟨hop, hothers⟩ := List.forall_mem_cons.1 hne
    obtain ⟨s₁, hfirst, hrest⟩ := bind_eq_ok hrun
    rw [ih hrest hothers, get?_of_run hfirst fun h => hop (h.unique_ofRecords hp hk)]
    intro hwords
    cases p with
    | words kind => exact hp.elim
    | _ => exact hwords.elim

end Store

/-- Names stay free of zero characters if those that are entered are. -/
theorem Rows.Plain.run {s s' : Store} (h : s.rows.Plain) {op : Operation} (hop : op.Plain)
    (hrun : op.run s = .ok s') : s'.rows.Plain := by
  intro kind k value t hget hread
  rcases Store.entered_of_run hrun hget with ⟨v, rfl, x, hx, -, -, rfl⟩ | hold
  · rw [ofRecord_symbol (hop x hx).1, Except.ok.injEq] at hread
    exact hread ▸ Symbol.plain_normal.2 (hop x hx).2
  · exact h kind k value t hold hread

/-! ## The records of a document -/

/-- Whether the records of the document are those of the version. -/
def Version.Recorded (v : Version) (rows : Rows) : Prop :=
  ∀ (p : IndexPart) (k : Bytes), p.OfRecords → p.Owns v.uri k →
    rows.get? (p.table.key k) = v.rows.get? (p.table.key k)

namespace Version
variable {v : Version} {rows : Rows}

/-- The records of a document stay while others are replaced or removed. -/
theorem recorded_of_runAll {s s' : Store} {after : List Operation}
    (hrun : s.runAll (.replace v :: after) = .ok s') (hothers : ∀ op ∈ after, op.uri ≠ v.uri) :
    v.Recorded s'.rows := by
  intro p k hp hk
  obtain ⟨s₁, hreplace, hafter⟩ := bind_eq_ok hrun
  rw [Store.get?_of_runAll_others hafter hothers hp hk, Store.get?_led hreplace (hk.led hp)]

theorem Recorded.run_document (h : v.Recorded rows) (hfits : v.record.Fits) :
    (Index.document v.uri).run rows = .ok (some v.record.normal) := by
  have hrow : rows.get? (IndexPart.documents.table.key (Bytes.ofText v.uri)) =
      some (toRecord v.record) := by
    rw [h .documents _ trivial rfl]
    exact (get?_rows_iff (p := .documents) fun value hvalue => And.right hvalue).2 ⟨rfl, rfl⟩
  refine (Query.run_bind_eq_ok rows (Query.run_get rows IndexPart.documents.table _)).trans ?_
  rw [hrow]
  simp only [ofRecord_document hfits]
  rfl

end Version

end PhpIndex
