import PhpIndex.Proofs.Store.KeyOrder
import Mathlib.Data.List.Basic

/-!
# Visits and removals

Rows are shown to a visitor one by one, until a key does not begin with the lead or the visitor
stops. A removal notes the keys with the lead and takes them out one after the other. Neither
misses a row, because keys with a common beginning are neighbours in byte order. This asks nothing
of the lead, which may be empty, end in the highest byte or be a key itself.
Main statement: `scans_and_removals_exact`.
-/
namespace PhpIndex

/-- A loop that ends where the test fails is the loop over what stands in front of that place. -/
theorem forIn_takeWhile {α σ : Type} (p : α → Bool) (see : α → σ → ForInStep σ) (l : List α)
    (seen : σ) :
    (forIn l seen fun a seen => (pure (if p a then see a seen else .done seen) : Id _)) =
      forIn (l.takeWhile p) seen fun a seen => (pure (see a seen) : Id _) := by
  induction l generalizing seen with
  | nil => rfl
  | cons a rest ih =>
    by_cases ha : p a
    · rw [List.takeWhile_cons_of_pos ha, List.forIn_cons, List.forIn_cons, if_pos ha, pure_bind,
        pure_bind]
      cases see a seen with
      | done later => rfl
      | yield later => exact ih later
    · rw [List.takeWhile_cons_of_neg ha, List.forIn_cons, if_neg ha, pure_bind, List.forIn_nil]

/-- Whether the list holds, each once and in ascending order, the rows from `start` on whose keys
begin with `lead` and no others, of those that `get?` answers for. -/
structure Scanned (get? : Bytes → Option Bytes) (start lead : Bytes) (found : List Row) : Prop where
  mem_iff : ∀ row, row ∈ found ↔
    get? row.1 = some row.2 ∧ compare row.1 start ≠ .lt ∧ lead <+: row.1
  ascending : found.Pairwise (fun a b => compare a.1 b.1 = .lt)

namespace Rows
variable {rows : Rows} {start lead : Bytes}

/-- Shows the rows from `start` on to a visitor, in order, until a key does not begin with `lead`
or the visitor stops. -/
def visitFrom {σ : Type} (rows : Rows) (start lead : Bytes) (see : Row → σ → ForInStep σ)
    (seen : σ) : σ :=
  Id.run (forIn (rows.startingAt start) seen fun row seen =>
    pure (if lead.isPrefixOf row.1 then see row seen else .done seen))

/-- Every visitor is shown the rows of the scan, up to the one at which it stops. -/
theorem visitFrom_eq_forIn {σ : Type} (see : Row → σ → ForInStep σ) (seen : σ) :
    rows.visitFrom start lead see seen =
      Id.run (forIn (rows.scanFrom start lead) seen fun row seen => pure (see row seen)) :=
  congrArg Id.run (forIn_takeWhile _ see _ seen)

theorem visitFrom_yield {σ : Type} (see : Row → σ → σ) (seen : σ) :
    rows.visitFrom start lead (fun row seen => .yield (see row seen)) seen =
      (rows.scanFrom start lead).foldl (fun seen row => see row seen) seen := by
  rw [visitFrom_eq_forIn, List.forIn_pure_yield_eq_foldl, Id.run_pure]

theorem scanned_scanFrom (h : lead <+: start) :
    Scanned rows.get? start lead (rows.scanFrom start lead) where
  mem_iff row := by
    rw [scanFrom_eq_filter h, List.mem_filter, OrderedMap.get?_eq_some_iff, Bool.and_eq_true,
      bne_iff_ne, List.isPrefixOf_iff_prefix]
  ascending := by
    rw [scanFrom_eq_filter h]
    exact rows.ascending.filter _

/-- Rows taken out one after the other are gone, and no others. -/
theorem get?_foldl_erase (doomed : List Row) (rows : Rows) (key : Bytes) :
    (doomed.foldl (fun rows row => rows.erase row.1) rows).get? key =
      if key ∈ doomed.map Prod.fst then none else rows.get? key := by
  induction doomed generalizing rows with
  | nil => simp
  | cons row rest ih =>
    rw [List.foldl_cons, ih, OrderedMap.get?_erase]
    by_cases hrow : key = row.1
    · simp [hrow]
    · simp only [hrow, if_false, List.map_cons, List.mem_cons, false_or]

/-- A removal may as well drop all rows at once. -/
theorem foldl_erase_scan (rows : Rows) (lead : Bytes) :
    (rows.scan lead).foldl (fun rows row => rows.erase row.1) rows = rows.eraseAll lead := by
  refine OrderedMap.ext_get? fun key => ?_
  rw [get?_foldl_erase, get?_eraseAll]
  by_cases hlead : lead <+: key
  · rw [if_pos hlead]
    cases hget : rows.get? key with
    | none => exact ite_self none
    | some value => exact if_pos (List.mem_map.2 ⟨(key, value), mem_scan.2 ⟨hget, hlead⟩, rfl⟩)
  · rw [if_neg hlead]
    refine if_neg fun hdoomed => ?_
    obtain ⟨row, hrow, rfl⟩ := List.mem_map.1 hdoomed
    exact hlead (mem_scan.1 hrow).2

theorem length_scan (rows : Rows) (lead : Bytes) :
    (rows.scan lead).length = rows.keys.countP (lead <+: ·) := by
  rw [scan_eq_filter, ← List.countP_eq_length_filter, OrderedMap.keys, List.countP_map]
  refine List.countP_congr fun row _ => ?_
  rw [List.isPrefixOf_iff_prefix, Function.comp_apply, decide_eq_true_iff]

theorem entries_eraseAll (rows : Rows) (lead : Bytes) :
    (rows.eraseAll lead).entries = rows.entries.filter (fun row => !lead.isPrefixOf row.1) := by
  refine OrderedMap.eq_of_mem_iff (rows.eraseAll lead).ascending (rows.ascending.filter _)
    fun row => ?_
  rw [← OrderedMap.get?_eq_some_iff, get?_eraseAll, List.mem_filter, ← OrderedMap.get?_eq_some_iff,
    Bool.not_eq_true', Bool.eq_false_iff, ne_eq, List.isPrefixOf_iff_prefix]
  by_cases hlead : lead <+: row.1
  · simp [hlead]
  · simp [hlead]

/-- A removal takes out as many rows as a scan visits. -/
theorem size_eraseAll (rows : Rows) (lead : Bytes) :
    rows.size = (rows.eraseAll lead).size + (rows.scan lead).length := by
  rw [OrderedMap.size, OrderedMap.size, entries_eraseAll, scan_eq_filter, Nat.add_comm]
  exact List.length_eq_length_filter_add _

end Rows

namespace Store

theorem rows_deleteAll (s : Store) (lead : Bytes) :
    (s.deleteAll lead).1.rows = s.rows.eraseAll lead := by
  unfold deleteAll
  dsimp only
  split
  next hnone =>
    rw [← Rows.foldl_erase_scan, List.length_eq_zero_iff.1 hnone]
    rfl
  next => rfl

theorem count_deleteAll (s : Store) (lead : Bytes) :
    (s.deleteAll lead).2 = (s.rows.scan lead).length := by
  unfold deleteAll
  dsimp only
  split
  next hnone => exact hnone.symm
  next => rfl

end Store

namespace Table
variable (t : Table) {start lead : Bytes}

theorem compare_key (a b : Bytes) : compare (t.key a) (t.key b) = compare a b :=
  Bytes.compare_append_left t.lead a b

theorem key_prefix_key_iff {a b : Bytes} : t.key a <+: t.key b ↔ a <+: b :=
  List.prefix_append_right_inj t.lead

/-- What a table scans of the store it is in, it would scan of one that holds its rows alone. -/
theorem scanned_relative {get? : Bytes → Option Bytes} {found : List Row}
    (h : Scanned get? (t.key start) (t.key lead) found) :
    Scanned (fun k => get? (t.key k)) start lead
      (found.map fun row => (row.1.drop t.lead.length, row.2)) := by
  -- All keys found begin as those of the table do, so dropping that beginning loses nothing.
  have hkey : ∀ row ∈ found, t.key (row.1.drop t.lead.length) = row.1 := fun row hrow =>
    List.prefix_iff_eq_append.1 ((List.prefix_append _ _).trans ((h.mem_iff row).1 hrow).2.2)
  refine ⟨fun row => ?_, ?_⟩
  · have hmem : row ∈ found.map (fun row => (row.1.drop t.lead.length, row.2)) ↔
        (t.key row.1, row.2) ∈ found := by
      rw [List.mem_map]
      constructor
      · rintro ⟨full, hfull, rfl⟩
        rwa [hkey full hfull]
      · intro hrow
        exact ⟨_, hrow, by rw [key, List.drop_left]⟩
    rw [hmem, h.mem_iff, compare_key, key_prefix_key_iff]
  · rw [List.pairwise_map]
    refine h.ascending.imp_of_mem fun {a b} ha hb hab => ?_
    rwa [← compare_key t, hkey a ha, hkey b hb]

theorem get?_make_deleteAll (rows : Rows) (lead k : Bytes) :
    (rows.make (t.deleteAll lead)).get? (t.key k) =
      if lead <+: k then none else rows.get? (t.key k) := by
  rw [Rows.get?_make, deleteAll, Change.effect]
  simp only [key_prefix_key_iff]

theorem get?_make_deleteAll_of_not_prefix (rows : Rows) (lead : Bytes) {key : Bytes}
    (h : ¬ t.lead <+: key) : (rows.make (t.deleteAll lead)).get? key = rows.get? key := by
  rw [Rows.get?_make, deleteAll, Change.effect]
  exact if_neg fun hlead => h ((List.prefix_append _ _).trans hlead)

end Table

/-- From any start that begins with the lead, a visitor that never stops is shown the rows at or
behind the start whose keys begin with the lead, each once and in ascending order, and no others.
A removal takes out the rows whose keys begin with the lead, whether it is made at once, one row
after the other or in a batch, answers how many they were, and leaves all others as they were. In
a table both do the same to the keys of the table, and nothing to the keys of others. -/
theorem scans_and_removals_exact (s : Store) {start lead : Bytes} (h : lead <+: start) :
    Scanned s.rows.get? start lead (s.rows.scanFrom start lead) ∧
    (∀ {σ : Type} (see : Row → σ → σ) (seen : σ),
      s.rows.visitFrom start lead (fun row seen => .yield (see row seen)) seen =
        (s.rows.scanFrom start lead).foldl (fun seen row => see row seen) seen) ∧
    (∀ key, (s.deleteAll lead).1.rows.get? key =
      if lead <+: key then none else s.rows.get? key) ∧
    (s.deleteAll lead).2 = s.rows.keys.countP (lead <+: ·) ∧
    s.rows.size = (s.deleteAll lead).1.rows.size + (s.deleteAll lead).2 ∧
    (s.deleteAll lead).1.rows =
      (s.rows.scan lead).foldl (fun rows row => rows.erase row.1) s.rows ∧
    s.rows.make (.deleteAll lead) = (s.deleteAll lead).1.rows ∧
    ∀ t : Table,
      (∃ found, (t.scanFrom start lead).run s.rows = .ok found ∧
        Scanned (fun k => s.rows.get? (t.key k)) start lead found) ∧
      (∀ k, (s.rows.make (t.deleteAll lead)).get? (t.key k) =
        if lead <+: k then none else s.rows.get? (t.key k)) ∧
      ∀ key, ¬ t.lead <+: key →
        (s.rows.make (t.deleteAll lead)).get? key = s.rows.get? key := by
  have hrows := s.rows_deleteAll lead
  have hcount := s.count_deleteAll lead
  refine ⟨Rows.scanned_scanFrom h, Rows.visitFrom_yield, fun key => ?_, ?_, ?_, ?_, hrows.symm,
    fun t => ⟨⟨_, rfl, ?_⟩, t.get?_make_deleteAll s.rows lead, fun key hkey =>
      t.get?_make_deleteAll_of_not_prefix s.rows lead hkey⟩⟩
  · rw [hrows, Rows.get?_eraseAll]
  · rw [hcount, Rows.length_scan]
  · rw [hrows, hcount, Rows.size_eraseAll]
  · rw [hrows, Rows.foldl_erase_scan]
  · exact t.scanned_relative (Rows.scanned_scanFrom (t.key_prefix_key_iff.2 h))

/-- Keys around one that ends in the highest byte. -/
def rowsAtHighestByte : Rows :=
  .ofList [([97], [1]), ([97, 254, 0], [2]), ([97, 255], [3]), ([97, 255, 0], [4]),
    ([97, 255, 255], [5]), ([98], [6])]

theorem scans_and_removals_exact_at_highest_byte :
    let s : Store := ⟨rowsAtHighestByte, true, false⟩
    ([97, 255] : Bytes) <+: [97, 255, 0] ∧
    s.rows.visitFrom [97, 255, 0] [97, 255] (fun row seen => .yield (seen ++ [row.2])) [] =
      [[4], [5]] ∧
    (s.deleteAll [97, 255]).2 = 3 ∧
    (s.deleteAll [97, 255]).1.rows.get? [97, 255] = none ∧
    (s.deleteAll [97, 255]).1.rows.get? [98] = some [6] := by
  intro s
  have hbegins : ([97, 255] : Bytes) <+: [97, 255, 0] := by decide
  obtain ⟨-, hvisit, hget, hcount, -⟩ := scans_and_removals_exact s hbegins
  refine ⟨hbegins, ?_, ?_, ?_, ?_⟩
  · rw [hvisit]
    decide
  · rw [hcount]
    decide
  · rw [hget]
    decide
  · rw [hget]
    decide

end PhpIndex
