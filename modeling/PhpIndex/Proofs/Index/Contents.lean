import PhpIndex.Proofs.Index.Lookup
import PhpIndex.Proofs.Index.Positions
import PhpIndex.Proofs.Symbol.Normal

/-!
# What is read of a document

The symbols of a document are read kind by kind and its scopes and references by their ranges.
Sorted by their ranges the symbols are those of the document as they are read back, and a document
that two stores hold alike is read alike from both.
Main statements: `Holds.run_documentSymbols`, `Holds.run_scopesOf_eq`, `Holds.run_findWhere_eq`.
-/
namespace PhpIndex

/-! ## Source order -/

namespace Symbol

/-- A number that grows with the start of a symbol, and for one start with its end. -/
def sourceRank (s : Symbol) : Nat :=
  s.location.start.toNat * (UInt32.size + 1) + s.location.range?.elim 0 fun r => r.stop.toNat + 1

theorem inSourceOrder_eq (a b : Symbol) :
    a.inSourceOrder b = decide (a.sourceRank ≤ b.sourceRank) := by
  have hlt (x y : UInt32) : (x < y) ↔ x.toNat < y.toNat := UInt32.lt_iff_toNat_lt
  have hle (x y : UInt32) : (x ≤ y) ↔ x.toNat ≤ y.toNat := UInt32.le_iff_toNat_le
  have heq (x y : UInt32) : (x = y) ↔ x.toNat = y.toNat := UInt32.toNat_inj.symm
  rw [Bool.eq_iff_iff, decide_eq_true_eq]
  simp only [inSourceOrder, sourceRank, Location.start, Bool.or_eq_true, Bool.and_eq_true,
    decide_eq_true_eq, beq_iff_eq, hlt, heq, UInt32.size]
  cases a.location.range? with
  | none =>
    cases b.location.range? with
    | none => simp
    | some y =>
      have hy := y.stop.toNat_lt
      simp only [Option.map_none, Option.getD_none, Option.map_some, Option.getD_some,
        Option.elim_none, Option.elim_some, UInt32.toNat_zero, and_true]
      omega
  | some x =>
    have hx := x.stop.toNat_lt
    cases b.location.range? with
    | none =>
      simp only [Option.map_none, Option.getD_none, Option.map_some, Option.getD_some,
        Option.elim_none, Option.elim_some, UInt32.toNat_zero, Bool.false_eq_true, and_false,
        or_false]
      omega
    | some y =>
      have hy := y.stop.toNat_lt
      simp only [Option.map_some, Option.getD_some, Option.elim_some, decide_eq_true_eq, hle]
      omega

theorem range?_eq_of_sourceRank {a b : Symbol} (h : a.sourceRank = b.sourceRank) :
    a.location.range? = b.location.range? := by
  simp only [sourceRank, Location.start, UInt32.size] at h
  cases ha : a.location.range? with
  | none =>
    cases hb : b.location.range? with
    | none => rfl
    | some y =>
      have hy := y.stop.toNat_lt
      rw [ha, hb] at h
      simp only [Option.map_none, Option.getD_none, Option.map_some, Option.getD_some,
        Option.elim_none, Option.elim_some, UInt32.toNat_zero] at h
      omega
  | some x =>
    have hx := x.stop.toNat_lt
    cases hb : b.location.range? with
    | none =>
      rw [ha, hb] at h
      simp only [Option.map_none, Option.getD_none, Option.map_some, Option.getD_some,
        Option.elim_none, Option.elim_some, UInt32.toNat_zero] at h
      omega
    | some y =>
      have hy := y.stop.toNat_lt
      rw [ha, hb] at h
      simp only [Option.map_some, Option.getD_some, Option.elim_some] at h
      have hstart : x.start = y.start := UInt32.toNat_inj.1 (by omega)
      have hstop : x.stop = y.stop := UInt32.toNat_inj.1 (by omega)
      exact congrArg some (congrArg₂ Range.mk hstart hstop)

/-- Symbols whose ranges differ have one order in the source. -/
theorem mergeSort_inSourceOrder_eq {symbols symbols' : List Symbol} (hperm : symbols.Perm symbols')
    (hranges : symbols.Pairwise fun a b => a.location.range? ≠ b.location.range?) :
    symbols.mergeSort inSourceOrder = symbols'.mergeSort inSourceOrder := by
  have htrans (a b c : Symbol) (hab : inSourceOrder a b) (hbc : inSourceOrder b c) :
      inSourceOrder a c := by
    rw [inSourceOrder_eq, decide_eq_true_eq] at *
    exact Nat.le_trans hab hbc
  have htotal (a b : Symbol) : (inSourceOrder a b || inSourceOrder b a) = true := by
    rw [inSourceOrder_eq, inSourceOrder_eq, Bool.or_eq_true, decide_eq_true_eq, decide_eq_true_eq]
    exact Nat.le_total _ _
  have hsymm : Std.Symm fun a b : Symbol => a.location.range? ≠ b.location.range? :=
    ⟨fun _ _ => Ne.symm⟩
  refine List.Perm.eq_of_pairwise (fun a b ha hb hab hba => ?_)
    (List.pairwise_mergeSort htrans htotal _) (List.pairwise_mergeSort htrans htotal _)
    ((List.mergeSort_perm _ _).trans (hperm.trans (List.mergeSort_perm _ _).symm))
  rw [inSourceOrder_eq, decide_eq_true_eq] at hab hba
  by_contra hne
  refine List.Pairwise.forall hranges (List.mem_mergeSort.1 ha) ?_ hne
    (range?_eq_of_sourceRank (Nat.le_antisymm hab hba))
  exact hperm.mem_iff.2 (List.mem_mergeSort.1 hb)

end Symbol

namespace Holds
variable {rows : Rows} {last : String → Option Version}

/-! ## Symbols -/

/-- Each declaration of a document is read once. -/
theorem nodup_of_run_symbolsOfKind (h : Holds rows last) {uri : String} (huri : NulFree uri)
    {kind : TableKind} {old : List Symbol}
    (hold : (Index.symbolsOfKind uri kind).run rows = .ok old) : old.Nodup := by
  let lead := (IndexPart.declarations kind).table.key (joinKey [uri, ""])
  have hread : (rows.scan lead).mapM (fun row => ofRecord (α := Symbol) row.2) = .ok old :=
    Index.run_symbolsOfKind_iff.1 hold
  have hkeys : ((rows.scan lead).map Prod.fst).Nodup := by
    rw [Rows.scan_eq_filter]
    exact rows.nodup_keys.sublist ((List.filter_sublist).map Prod.fst)
  have hkeyed : List.Forall₂ (fun key t => key = (IndexPart.declarations kind).table.key
      (joinKey [uri, t.indexName])) ((rows.scan lead).map Prod.fst) old := by
    rw [List.forall₂_map_left_iff]
    refine ((List.forall₂_and_left _ _).2 ⟨fun _ hrow => hrow, forall₂_of_mapM_eq_ok hread⟩).imp ?_
    rintro row t ⟨hrow, hdecode⟩
    obtain ⟨v, name, s, hv, hs, rfl⟩ := (h.mem_scan_declarations huri kind).1 hrow
    obtain ⟨hmem, -, rfl⟩ := Version.declared_eq_some hs
    rw [ofRecord_symbol ((h.valid uri v hv).fits s hmem), Except.ok.injEq] at hdecode
    rw [← hdecode, Symbol.indexName_normal]
  rw [eq_map_of_forall₂ hkeyed fun _ _ _ heq => heq] at hkeys
  exact hkeys.of_map

section Document
variable {uri : String} {v : Version} (h : Holds rows last) (hv : last uri = some v)
  (hnames : v.NamesDiffer) (htables : ∀ s ∈ v.symbols, s.table?.isSome)
include h hv hnames htables

/-- The symbols of a document that declares nothing twice are read back kind by kind. -/
theorem run_symbolsOf : ∃ symbols, (Index.symbolsOf uri).run rows = .ok symbols ∧
    symbols.Perm (v.symbols.map Symbol.normal) := by
  have huri : NulFree uri := h.uri uri v hv ▸ (h.valid uri v hv).uri
  choose old hold hmem using fun kind => h.run_symbolsOfKind huri kind
  have hdeclared (kind : TableKind) (t : Symbol) : t ∈ old kind ↔
      ∃ s ∈ v.symbols, s.table? = some kind ∧ t = s.normal := by
    rw [hmem]
    constructor
    · rintro ⟨w, name, s, hw, hs, rfl⟩
      obtain rfl := Option.some.inj (hv.symm.trans hw)
      obtain ⟨hsmem, hkind, -⟩ := Version.declared_eq_some hs
      exact ⟨s, hsmem, hkind, rfl⟩
    · rintro ⟨s, hs, hkind, rfl⟩
      obtain ⟨x, hx⟩ := Version.exists_declared hs hkind
      obtain ⟨hxmem, hxkind, hxname⟩ := Version.declared_eq_some hx
      rw [hnames.eq hxmem hs hxkind hkind hxname] at hx
      exact ⟨v, s.indexName, s, hv, hx, rfl⟩
  have hgroups := Query.run_forEach_eq_map rows (l := TableKind.all) (f := Index.symbolsOfKind uri)
    (g := old) fun kind _ => hold kind
  refine ⟨_, Query.run_bind_eq_ok rows hgroups, ?_⟩
  refine (List.perm_ext_iff_of_nodup ?_ ?_).2 fun t => ?_
  · rw [List.nodup_flatten]
    refine ⟨fun group hgroup => ?_, ?_⟩
    · obtain ⟨kind, -, rfl⟩ := List.mem_map.1 hgroup
      exact h.nodup_of_run_symbolsOfKind huri (hold kind)
    · have hkinds : TableKind.all.Nodup := by decide
      refine List.pairwise_map.2 (hkinds.imp fun {a b} hne => ?_)
      intro t hta htb
      obtain ⟨s, -, hs, rfl⟩ := (hdeclared a t).1 hta
      obtain ⟨x, -, hx, heq⟩ := (hdeclared b _).1 htb
      have htable := congrArg Symbol.table? heq
      rw [Symbol.table?_normal, Symbol.table?_normal, hs, hx] at htable
      exact hne (Option.some.inj htable)
  · refine List.pairwise_map.2 (hnames.imp_of_mem fun {s t} hs ht hdiffer heq => ?_)
    have htable := congrArg Symbol.table? heq
    have hindex := congrArg Symbol.indexName heq
    rw [Symbol.table?_normal, Symbol.table?_normal] at htable
    rw [Symbol.indexName_normal, Symbol.indexName_normal] at hindex
    exact hdiffer (htables s hs) htable hindex
  · simp only [List.mem_flatten, List.mem_map, exists_exists_and_eq_and, hdeclared]
    constructor
    · rintro ⟨kind, -, s, hs, -, rfl⟩
      exact ⟨s, hs, rfl⟩
    · rintro ⟨s, hs, rfl⟩
      obtain ⟨kind, hkind⟩ := Option.isSome_iff_exists.1 (htables s hs)
      exact ⟨kind, by cases kind <;> decide, s, hs, hkind, rfl⟩

theorem run_documentSymbols (hlocated : v.Located)
    (hranges : v.symbols.Pairwise fun a b => a.location.range? ≠ b.location.range?) :
    (Index.documentSymbols uri).run rows =
      .ok ((v.symbols.mergeSort Symbol.inSourceOrder).map Symbol.normal) := by
  obtain ⟨symbols, hrun, hperm⟩ := h.run_symbolsOf hv hnames htables
  refine (Query.run_bind_eq_ok rows hrun).trans (congrArg Except.ok ?_)
  have hlocation {s : Symbol} (hs : s ∈ v.symbols) : s.normal.location = s.location :=
    (hlocated.location_normal hs).1
  rw [List.map_mergeSort (s := Symbol.inSourceOrder)]
  · refine (Symbol.mergeSort_inSourceOrder_eq hperm.symm ?_).symm
    refine List.pairwise_map.2 (hranges.imp_of_mem fun {s t} hs ht hne => ?_)
    rwa [hlocation hs, hlocation ht]
  · intro s hs t ht
    have hrank {s : Symbol} (hs : s ∈ v.symbols) : s.normal.sourceRank = s.sourceRank := by
      rw [Symbol.sourceRank, Symbol.sourceRank, hlocation hs]
    rw [Symbol.inSourceOrder_eq, Symbol.inSourceOrder_eq, hrank hs, hrank ht]

end Document

/-! ## Documents that two stores hold alike -/

section Alike
variable {rows' : Rows} {last' : String → Option Version} (h : Holds rows last)
  (h' : Holds rows' last') {uri : String} (huri : NulFree uri) (hsame : last' uri = last uri)
include h h' huri hsame

/-- In a table of ranges the same rows stand under the keys of the document. -/
theorem mem_entries_iff {p : IndexPart}
    (hp : ∀ uri k, p.HasKey uri k → ∃ range number, k = RangeIndex.key uri range number)
    {row : Row} (hrow : p.table.key (Key.ofText uri) <+: row.1) :
    row ∈ rows.entries ↔ row ∈ rows'.entries := by
  obtain ⟨key, value⟩ := row
  obtain ⟨rest, rfl⟩ := hrow
  have hkey : p.table.key (Key.ofText uri) ++ rest = p.table.key (Key.ofText uri ++ rest) :=
    List.append_assoc _ _ _
  rw [← OrderedMap.get?_eq_some_iff, ← OrderedMap.get?_eq_some_iff, hkey,
    h.get?_of_prefix hp huri (List.prefix_append _ _),
    h'.get?_of_prefix hp huri (List.prefix_append _ _), hsame]

theorem scanFrom_eq {p : IndexPart}
    (hp : ∀ uri k, p.HasKey uri k → ∃ range number, k = RangeIndex.key uri range number)
    {start : Bytes} (hstart : p.table.key (Key.ofText uri) <+: start) :
    rows.scanFrom start (p.table.key (Key.ofText uri)) =
      rows'.scanFrom start (p.table.key (Key.ofText uri)) := by
  rw [Rows.scanFrom_eq_filter hstart, Rows.scanFrom_eq_filter hstart]
  refine OrderedMap.eq_of_mem_iff (rows.ascending.filter _) (rows'.ascending.filter _) fun row => ?_
  simp only [List.mem_filter, Bool.and_eq_true, List.isPrefixOf_iff_prefix]
  refine and_congr_left fun ⟨_, hbegins⟩ => ?_
  exact mem_entries_iff h h' huri hsame hp hbegins

theorem run_findWhere_eq (offset : UInt32) (accept : Reference → Bool) :
    (referenceTable.findWhere uri offset accept).run rows =
      (referenceTable.findWhere uri offset accept).run rows' := by
  let x := IndexPart.references.table
  let start := x.key (Key.ofText uri ++ Key.ofInt (RangeIndex.keyInt offset))
  have hbegins : x.key (Key.ofText uri) <+: start :=
    IndexPart.key_prefix_iff.2 ⟨rfl, List.prefix_append _ _⟩
  have hscan := scanFrom_eq h h' huri hsame (p := .references) (fun _ _ hkey => hkey) hbegins
  have hanswer (rows : Rows) : (referenceTable.findWhere uri offset accept).run rows =
      (Query.ofFormat (RangeIndex.firstAt (Key.ofText uri).length offset accept
        ((rows.scanFrom start (x.key (Key.ofText uri))).map
          fun row => (row.1.drop x.lead.length, row.2)))).run rows := rfl
  rw [hanswer rows, hanswer rows', hscan, Query.run_ofFormat, Query.run_ofFormat]

theorem run_scopesOf_eq :
    (Index.scopesOf uri).run rows = (Index.scopesOf uri).run rows' := by
  let x := IndexPart.scopes.table
  have hscan := scanFrom_eq h h' huri hsame (p := .scopes) (fun _ _ hkey => hkey)
    (List.prefix_refl _)
  have hanswer (rows : Rows) : (Index.scopesOf uri).run rows =
      (Query.ofFormat (((rows.scanFrom (x.key (Key.ofText uri)) (x.key (Key.ofText uri))).map
        fun row => (row.1.drop x.lead.length, row.2)).mapM fun row => ofRecord row.2)).run rows :=
    rfl
  rw [hanswer rows, hanswer rows', hscan, Query.run_ofFormat, Query.run_ofFormat]

end Alike

end Holds
end PhpIndex
