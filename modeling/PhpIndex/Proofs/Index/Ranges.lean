import PhpIndex.Document.Basic
import PhpIndex.Proofs.Index.History
import PhpIndex.Proofs.Lookup.LeastBy
import PhpIndex.Proofs.Store.KeyOrder

/-!
# Lookup by offset

The rows of a document in a range index are its records, innermost first, and of equal ranges in
the order in which they were given. The scan from an offset on meets the ranges that end there or
later, so the first of them that has started is the innermost range around the offset.
Main statements: `RangeIndex.Stores.run_findWhere`, `RangeIndex.Stores.run_ofDocument`.
-/
namespace PhpIndex
namespace RangeIndex

/-! ## Records in the order of their keys -/

section Order
variable {α : Type}

/-- How numbered records are ordered by their keys. -/
def order : (Range × α) × Nat → (Range × α) × Nat → Ordering :=
  compareLex (compareOn fun e => e.1.1.innerness) (compareOn Prod.snd)

instance : Std.TransCmp (order (α := α)) := inferInstanceAs (Std.TransCmp (compareLex _ _))

theorem order_eq (a b : (Range × α) × Nat) : order a b =
    (compare a.1.1.innerness b.1.1.innerness).then (compare a.2 b.2) := by
  rw [order, compareLex, compareOn, compareOn]

/-- The records in the order of their keys. -/
def sorted (records : List (Range × α)) : List ((Range × α) × Nat) :=
  records.zipIdx.mergeSort fun a b => (order a b).isLE

theorem perm_sorted (records : List (Range × α)) : (sorted records).Perm records.zipIdx :=
  List.mergeSort_perm _ _

theorem pairwise_zipIdx (records : List α) :
    records.zipIdx.Pairwise fun a b => a.2 < b.2 := by
  have hnumbers := List.pairwise_lt_range (n := records.length)
  rw [List.range_eq_range', ← List.zipIdx_map_snd 0 records, List.pairwise_map] at hnumbers
  exact hnumbers

/-- No two records have one key. -/
theorem pairwise_sorted (records : List (Range × α)) :
    (sorted records).Pairwise fun a b => order a b = .lt := by
  have hle : (sorted records).Pairwise fun a b => (order a b).isLE := by
    refine List.pairwise_mergeSort ?_ ?_ _
    · intro a b c hab hbc
      exact Std.TransCmp.isLE_trans hab hbc
    · intro a b
      have hswap : order b a = (order a b).swap := Std.OrientedCmp.eq_swap
      rw [hswap]
      cases order a b <;> rfl
  have hne : (sorted records).Pairwise fun a b => a.2 ≠ b.2 := by
    have hzip : records.zipIdx.Pairwise fun a b => a.2 ≠ b.2 :=
      (pairwise_zipIdx records).imp fun h => Nat.ne_of_lt h
    exact ((perm_sorted records).pairwise_iff fun h => h.symm).2 hzip
  refine (hle.and hne).imp fun {a b} ⟨hab, hnumber⟩ => ?_
  cases h : order a b with
  | lt => rfl
  | gt =>
    rw [h] at hab
    cases hab
  | eq =>
    have hsnd := (compareLex_eq_eq.1 h).2
    exact absurd (Nat.compare_eq_eq.1 hsnd) hnumber

theorem ascends_zipIdx (records : List (Range × α)) :
    Ascends (fun e => e.1.1.innerness) Prod.snd records.zipIdx := by
  refine (pairwise_zipIdx records).imp fun {a b} h => ?_
  intro _
  exact h

theorem ascends_sorted (records : List (Range × α)) :
    Ascends (fun e => e.1.1.innerness) Prod.snd (sorted records) := by
  refine (pairwise_sorted records).imp fun {a b} hab hinner => ?_
  rw [order_eq, Nat.compare_eq_eq.2 hinner] at hab
  exact Nat.compare_eq_lt.1 hab

theorem innerness_sorted (records : List (Range × α)) :
    (sorted records).Pairwise fun a b => a.1.1.innerness ≤ b.1.1.innerness := by
  refine (pairwise_sorted records).imp fun {a b} hab => ?_
  by_cases hle : a.1.1.innerness ≤ b.1.1.innerness
  · exact hle
  · rw [order_eq, Nat.compare_eq_gt.2 (Nat.lt_of_not_le hle)] at hab
    cases hab

end Order

/-! ## Rows of records -/

variable {α : Type} [RecordFormat α]

/-- The row of a record with its range and number. -/
def rowOf (x : RangeIndex α) (uri : String) (e : (Range × α) × Nat) : Row :=
  (x.table.key (key uri e.1.1 (.ofNat e.2)), toRecord e.1.2)

/-- Whether the rows of a document are these records in any order. -/
structure Stores (x : RangeIndex α) (rows : Rows) (uri : String) (records : List (Range × α))
    (normal : α → α) : Prop where
  rows : ∀ row, row ∈ rows.scan (x.table.key (Key.ofText uri)) ↔
    ∃ e ∈ records.zipIdx, row = x.rowOf uri e
  keyed : ∀ e ∈ records, e.1.Keyed
  few : records.length ≤ 0x80000000
  readBack : ∀ e ∈ records, ofRecord (toRecord e.2) = .ok (normal e.2)

namespace Stores
variable {x : RangeIndex α} {rows : Rows} {uri : String} {records : List (Range × α)}
  {normal : α → α}

theorem of_mem_sorted (h : x.Stores rows uri records normal) {e : (Range × α) × Nat}
    (he : e ∈ sorted records) : e.1 ∈ records ∧ e.2 < 0x80000000 := by
  have hmem := (perm_sorted records).mem_iff.1 he
  obtain ⟨hlt, heq⟩ := List.mem_zipIdx' hmem
  have hfew := h.few
  refine ⟨heq ▸ List.getElem_mem hlt, by omega⟩

/-- A scan visits the records in their order. -/
theorem scan_eq (h : x.Stores rows uri records normal) :
    rows.scan (x.table.key (Key.ofText uri)) = (sorted records).map (x.rowOf uri) := by
  refine OrderedMap.eq_of_mem_iff ?_ ?_ fun row => ?_
  · rw [Rows.scan_eq_filter]
    exact rows.ascending.filter _
  · rw [List.pairwise_map]
    refine (pairwise_sorted records).imp_of_mem fun {a b} ha hb hab => ?_
    obtain ⟨hamem, hanumber⟩ := h.of_mem_sorted ha
    obtain ⟨hbmem, hbnumber⟩ := h.of_mem_sorted hb
    have hkey := compare_key uri (h.keyed a.1 hamem) (h.keyed b.1 hbmem) hanumber hbnumber
    simp only [rowOf, Table.key]
    rw [order_eq] at hab
    rw [Bytes.compare_append_left, hkey, hab]
  · rw [h.rows, List.mem_map]
    simp only [(perm_sorted records).mem_iff, eq_comm (a := row)]

theorem run_ofDocument (h : x.Stores rows uri records normal) :
    (x.ofDocument uri).run rows = .ok ((sorted records).map fun e => normal e.1.2) := by
  refine (Query.run_bind_eq_ok rows (Query.run_scan rows x.table (Key.ofText uri))).trans ?_
  have hread : ((rows.scan (x.table.key (Key.ofText uri))).map
      fun row => (row.1.drop x.table.lead.length, row.2)).mapM (fun row => ofRecord row.2) =
      .ok ((sorted records).map fun e => normal e.1.2) := by
    rw [h.scan_eq, List.map_map, List.mapM_map]
    exact mapM_eq_map fun e he => h.readBack e.1 (h.of_mem_sorted he).1
  rw [hread]
  rfl

/-- The first accepted record among ordered ones that has started. -/
theorem firstAt_eq (h : x.Stores rows uri records normal) {l : List ((Range × α) × Nat)}
    (hl : ∀ e ∈ l, e ∈ sorted records) (offset : UInt32) (accept : α → Bool) :
    firstAt (Key.ofText uri).length offset accept
        (l.map fun e => (key uri e.1.1 (.ofNat e.2), toRecord e.1.2)) =
      .ok ((l.find? fun e => e.1.1.start ≤ offset && accept (normal e.1.2)).map
        fun e => normal e.1.2) := by
  induction l with
  | nil => rfl
  | cons e rest ih =>
    have hrest := ih fun e' he' => hl e' (List.mem_cons_of_mem e he')
    obtain ⟨hmem, -⟩ := h.of_mem_sorted (hl e List.mem_cons_self)
    have hstart := readStart_key uri (h.keyed e.1 hmem) (.ofNat e.2)
    have hread := h.readBack e.1 hmem
    simp only [List.map_cons, firstAt, hstart, hread, hrest]
    by_cases hbefore : offset < e.1.1.start
    · have hnot : ¬ e.1.1.start ≤ offset := UInt32.not_le.2 hbefore
      simp [hbefore, hnot]
    · have hle : e.1.1.start ≤ offset := UInt32.not_lt.1 hbefore
      cases haccept : accept (normal e.1.2) with
      | true => simp [hbefore, hle, haccept]
      | false => simp [hbefore, haccept]

/-- The rows that a scan from an offset on visits. -/
theorem scanFrom_eq (h : x.Stores rows uri records normal) {offset : UInt32}
    (hoffset : offset.toNat < 0x80000000) :
    rows.scanFrom (x.table.key (Key.ofText uri ++ Key.ofInt (keyInt offset)))
        (x.table.key (Key.ofText uri)) =
      ((sorted records).filter fun e => decide (offset ≤ e.1.1.stop)).map (x.rowOf uri) := by
  have hbegins : x.table.key (Key.ofText uri) <+:
      x.table.key (Key.ofText uri ++ Key.ofInt (keyInt offset)) := by
    rw [Table.key, Table.key, List.prefix_append_right_inj]
    exact List.prefix_append _ _
  have hscan := h.scan_eq
  rw [Rows.scan_eq_filter] at hscan
  rw [Rows.scanFrom_eq_filter hbegins, ← List.filter_filter, hscan, List.filter_map]
  congr 1
  refine List.filter_congr fun e he => ?_
  have hstop := compare_key_offset uri (h.keyed e.1 (h.of_mem_sorted he).1) (.ofNat e.2) hoffset
  simp only [Function.comp_apply, rowOf, Table.key]
  rw [Bytes.compare_append_left, Bool.eq_iff_iff, bne_iff_ne, hstop, decide_eq_true_eq]

/-- What a scan from an offset on finds first. -/
theorem firstAt_scanFrom (h : x.Stores rows uri records normal) {offset : UInt32}
    (hoffset : offset.toNat < 0x80000000) (accept : α → Bool) :
    firstAt (Key.ofText uri).length offset accept
        ((rows.scanFrom (x.table.key (Key.ofText uri ++ Key.ofInt (keyInt offset)))
          (x.table.key (Key.ofText uri))).map
            fun row => (row.1.drop x.table.lead.length, row.2)) =
      .ok (((sorted records).filter fun e => e.1.1.contains offset &&
        accept (normal e.1.2)).head?.map fun e => normal e.1.2) := by
  have hdrop : ((fun row : Row => (row.1.drop x.table.lead.length, row.2)) ∘ x.rowOf uri) =
      fun e => (key uri e.1.1 (.ofNat e.2), toRecord e.1.2) := by
    funext e
    simp [rowOf, Table.key]
  have hcontains : (sorted records).filter (fun e => e.1.1.contains offset &&
      accept (normal e.1.2)) = ((sorted records).filter fun e => decide (offset ≤ e.1.1.stop)).filter
        fun e => e.1.1.start ≤ offset && accept (normal e.1.2) := by
    rw [List.filter_filter]
    refine List.filter_congr fun e _ => ?_
    rw [Range.contains, Bool.and_right_comm]
  rw [h.scanFrom_eq hoffset, List.map_map, hdrop,
    h.firstAt_eq fun e he => List.mem_of_mem_filter he, hcontains, List.head?_filter]

/-- The innermost accepted record is found. -/
theorem run_findWhere (h : x.Stores rows uri records normal) {offset : UInt32}
    (hoffset : offset.toNat < 0x80000000) (accept : α → Bool) :
    (x.findWhere uri offset accept).run rows =
      .ok ((leastBy (fun e => e.1.innerness) (records.filter fun e =>
        e.1.contains offset && accept (normal e.2))).map fun e => normal e.2) := by
  let p := fun e : (Range × α) × Nat => e.1.1.contains offset && accept (normal e.1.2)
  have hinner := (innerness_sorted records).filter p
  have hperm := (perm_sorted records).filter p
  have hleast : ((sorted records).filter p).head? =
      leastBy (fun e => e.1.1.innerness) (records.zipIdx.filter p) := by
    rw [← leastBy_eq_head? hinner]
    exact leastBy_eq_of_perm hperm ((ascends_sorted records).filter p)
      ((ascends_zipIdx records).filter p)
  have hfst : records.filter (fun e => e.1.contains offset && accept (normal e.2)) =
      (records.zipIdx.filter p).map Prod.fst := by
    have hunzip := List.zipIdx_map_fst 0 records
    rw [← hunzip, List.filter_map, hunzip]
    rfl
  have hfirst := h.firstAt_scanFrom hoffset accept
  rw [hleast] at hfirst
  rw [hfst, leastBy_map, Option.map_map]
  exact congrArg (fun r => (Query.ofFormat r).run rows) hfirst

/-- The rows of a document are the records of a version, if the store holds under the keys of the
document what the version writes. -/
theorem of_version {p : IndexPart} {v : Version} (hx : x.table = p.table)
    (hrows : ∀ k, Key.ofText v.uri <+: k →
      rows.get? (p.table.key k) = v.rows.get? (p.table.key k))
    (henters : ∀ k value, v.Enters p k value ↔ ∃ e ∈ records.zipIdx,
      k = RangeIndex.key v.uri e.1.1 (.ofNat e.2) ∧ value = toRecord e.1.2)
    (hkeyed : ∀ e ∈ records, e.1.Keyed) (hfew : records.length ≤ 0x80000000)
    (hread : ∀ e ∈ records, ofRecord (toRecord e.2) = .ok (normal e.2)) :
    x.Stores rows v.uri records normal := by
  refine ⟨fun row => ?_, hkeyed, hfew, hread⟩
  obtain ⟨key, value⟩ := row
  rw [hx, IndexPart.mem_scan]
  constructor
  · rintro ⟨k, hbegins, rfl, hget⟩
    rw [hrows _ hbegins] at hget
    obtain ⟨e, he, hk, rfl⟩ := (henters _ value).1 (Version.enters_of_get?_rows hget)
    refine ⟨e, he, ?_⟩
    rw [rowOf, hx, hk]
  · rintro ⟨e, he, heq⟩
    rw [rowOf, hx] at heq
    obtain ⟨rfl, rfl⟩ := Prod.mk.inj heq
    have hmem {a : (Range × α) × Nat} (ha : a ∈ records.zipIdx) :
        a.1 ∈ records ∧ a.2 < 0x80000000 ∧ records[a.2]? = some a.1 := by
      have hget := List.mem_zipIdx_iff_getElem?.1 ha
      obtain ⟨hlt, -⟩ := List.getElem?_eq_some_iff.1 hget
      exact ⟨List.mem_of_getElem? hget, by omega, hget⟩
    have hbegins := IndexPart.ofText_prefix_key v.uri e.1.1 (.ofNat e.2)
    refine ⟨_, hbegins, rfl, ?_⟩
    rw [hrows _ hbegins]
    refine (Version.get?_rows_iff fun value hvalue => ?_).2 ((henters _ _).2 ⟨e, he, rfl, rfl⟩)
    -- The number of a record is in its key, so no other record is stored under it.
    obtain ⟨f, hf, hkey, rfl⟩ := (henters _ value).1 hvalue
    obtain ⟨hemem, helt, heget⟩ := hmem he
    obtain ⟨hfmem, hflt, hfget⟩ := hmem hf
    have hcompare := RangeIndex.compare_key v.uri (hkeyed e.1 hemem) (hkeyed f.1 hfmem) helt hflt
    have hself : compare (RangeIndex.key v.uri f.1.1 (.ofNat f.2))
        (RangeIndex.key v.uri f.1.1 (.ofNat f.2)) = .eq := Std.ReflCmp.compare_self
    rw [hkey, hself, eq_comm, Ordering.then_eq_eq] at hcompare
    rw [Nat.compare_eq_eq.1 hcompare.2, hfget, Option.some.injEq] at heget
    rw [heget]

end Stores
end RangeIndex

/-- How the stored references enter their rows. -/
theorem Version.enters_references (v : Version) (k value : Bytes) :
    v.Enters .references k value ↔ ∃ e ∈ v.located.zipIdx,
      k = RangeIndex.key v.uri e.1.1 (.ofNat e.2) ∧ value = toRecord e.1.2 := by
  simp only [Version.Enters, List.mem_zipIdx_iff_getElem?]
  constructor
  · rintro ⟨i, range, r, hi, rfl, rfl⟩
    exact ⟨((range, r), i), hi, rfl, rfl⟩
  · rintro ⟨⟨⟨range, r⟩, i⟩, hi, rfl, rfl⟩
    exact ⟨i, range, r, hi, rfl, rfl⟩

theorem Version.mem_located {v : Version} {e : Range × Reference} (he : e ∈ v.located) :
    e.2 ∈ v.references ∧ e.2.range? = some e.1 := by
  obtain ⟨r, hr, hlocated⟩ := List.mem_filterMap.1 he
  split at hlocated
  · cases hlocated
  · obtain ⟨range, hrange, rfl⟩ := Option.map_eq_some_iff.1 hlocated
    exact ⟨hr, hrange⟩

namespace Holds
variable {rows : Rows} {last : String → Option Version}

/-- A row under the keys of a document in a table of ranges is a row of its last version. -/
theorem get?_of_prefix (h : Holds rows last) {p : IndexPart}
    (hp : ∀ uri k, p.HasKey uri k → ∃ range number, k = RangeIndex.key uri range number)
    {uri : String} (huri : NulFree uri) {k : Bytes} (hk : Key.ofText uri <+: k) {value : Bytes} :
    rows.get? (p.table.key k) = some value ↔
      ∃ v, last uri = some v ∧ v.rows.get? (p.table.key k) = some value := by
  rw [h.rows]
  refine ⟨fun ⟨u, w, hw, hvalue⟩ => ?_, fun ⟨v, hv, hvalue⟩ => ⟨uri, v, hv, hvalue⟩⟩
  have hwvalid := h.valid u w hw
  obtain ⟨range, number, rfl⟩ :=
    hp w.uri k (Version.hasKey_of_enters hwvalid (Version.enters_of_get?_rows hvalue))
  obtain ⟨rest, hrest⟩ := IndexPart.rangeKey_eq hwvalid.uri range number
  rw [hrest, Key.ofText_of_nulFree huri] at hk
  have heq := Bytes.ofText_inj (cut_separator (Bytes.zero_not_mem huri)
    (Bytes.zero_not_mem hwvalid.uri) hk).1
  rw [h.uri u w hw] at heq
  subst heq
  exact ⟨w, hw, hvalue⟩

theorem get?_eq_of_prefix (h : Holds rows last) {p : IndexPart}
    (hp : ∀ uri k, p.HasKey uri k → ∃ range number, k = RangeIndex.key uri range number)
    {v : Version} (hv : last v.uri = some v) {k : Bytes} (hk : Key.ofText v.uri <+: k) :
    rows.get? (p.table.key k) = v.rows.get? (p.table.key k) := by
  refine Option.ext fun value => ?_
  rw [h.get?_of_prefix hp (h.valid v.uri v hv).uri hk, hv]
  simp only [Option.some.injEq, exists_eq_left']

/-- The references of a document, each with its range, and what is found of them. -/
theorem stores_references (h : Holds rows last) {uri : String} {v : Version}
    (hv : last uri = some v) (hkeyed : ∀ e ∈ v.located, e.1.Keyed)
    (hfew : v.located.length ≤ 0x80000000) (hfits : ∀ r ∈ v.references, r.Fits) :
    referenceTable.Stores rows uri v.located Reference.normal := by
  obtain rfl := h.uri uri v hv
  refine .of_version (p := .references) rfl
    (fun k hk => h.get?_eq_of_prefix (p := .references) (fun _ _ hkey => hkey) hv hk)
    v.enters_references hkeyed hfew fun e he => ?_
  exact ofRecord_reference (hfits e.2 (Version.mem_located he).1)

/-- The scopes of a document, if all of them have ranges. -/
theorem stores_scopes (h : Holds rows last) {uri : String} {v : Version} (hv : last uri = some v)
    {scopes : List (Range × VariableScope)} (hscopes : v.scopes = scopes.map Prod.snd)
    (hrange : ∀ e ∈ scopes, e.2.range? = some e.1) (hkeyed : ∀ e ∈ scopes, e.1.Keyed)
    (hfew : scopes.length ≤ 0x80000000) (hfits : ∀ s ∈ v.scopes, s.Fits) :
    scopeTable.Stores rows uri scopes VariableScope.normal := by
  obtain rfl := h.uri uri v hv
  refine .of_version (p := .scopes) rfl
    (fun k hk => h.get?_eq_of_prefix (p := .scopes) (fun _ _ hkey => hkey) hv hk)
    (fun k value => ?_) hkeyed hfew fun e he => ?_
  · simp only [Version.Enters, List.mem_zipIdx_iff_getElem?, hscopes, List.getElem?_map,
      Option.map_eq_some_iff]
    constructor
    · rintro ⟨i, range, s, ⟨⟨range', s⟩, hi, rfl⟩, hs, rfl, rfl⟩
      have hmem := List.mem_of_getElem? hi
      obtain rfl := Option.some.inj ((hrange _ hmem).symm.trans hs)
      exact ⟨((range', s), i), hi, rfl, rfl⟩
    · rintro ⟨⟨⟨range, s⟩, i⟩, hi, rfl, rfl⟩
      have hmem := List.mem_of_getElem? hi
      exact ⟨i, range, s, ⟨(range, s), hi, rfl⟩, hrange _ hmem, rfl, rfl⟩
  · refine ofRecord_variableScope (hfits e.2 ?_)
    rw [hscopes]
    exact List.mem_map_of_mem he

end Holds
end PhpIndex
