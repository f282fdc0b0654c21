import PhpIndex.Proofs.Store.KeyOrder
import PhpIndex.Proofs.Store.Keys
import Mathlib.Data.List.TakeWhile

/-!
# Order of tuple keys

A key of a text and any number of numbers compares with another as the tuples do, field by field:
the text by its bytes, the numbers by their values. The end of a text stands below all that may
follow in a longer one, an escaped zero included, so that texts which begin each other, or hold
zeros, are in order too. As no text ends inside another, the key of a document begins no key of
another document.
Main statement: `tuple_keys_ordered`.
-/
namespace PhpIndex
namespace Key

/-- The key of a tuple of a text and numbers. -/
def ofFields (text : String) (numbers : List Int32) : Bytes :=
  ofText text ++ numbers.flatMap ofInt

theorem ofFields_nil (text : String) : ofFields text [] = ofText text := List.append_nil _

theorem ofFields_pair (text : String) (a b : Int32) : ofFields text [a, b] = ofTuple text a b := by
  simp [ofFields, ofTuple]

/-- Tuples compare field by field. -/
def compareFields (text text' : String) (numbers numbers' : List Int32) : Ordering :=
  (compare (Bytes.ofText text) (Bytes.ofText text')).then
    (compare (numbers.map Int32.toInt) (numbers'.map Int32.toInt))

theorem compare_zero {b : UInt8} (h : b ≠ 0) : compare 0 b = .lt := by
  have hne : b.toNat ≠ 0 := fun e => h (UInt8.toNat_inj.1 e)
  rw [← Bytes.compare_toNat, Nat.compare_eq_lt]
  exact Nat.pos_of_ne_zero hne

/-- Escaped texts compare as they are, whatever follows them. -/
theorem compare_escape (a b x y : Bytes) :
    compare (escape a ++ 0 :: 1 :: x) (escape b ++ 0 :: 1 :: y) =
      (compare a b).then (compare x y) := by
  have hzero : compare (0 : UInt8) 0 = .eq := rfl
  have hterminator : compare (1 : UInt8) 255 = .lt := rfl
  induction a generalizing b with
  | nil =>
    cases b with
    | nil => simp [escape]
    | cons d b =>
      rw [List.compare_nil_cons]
      by_cases hd : d = 0
      · simp [escape, hd, List.compare_cons_cons, hterminator]
      · simp [escape, hd, List.compare_cons_cons, compare_zero hd]
  | cons c a ih =>
    cases b with
    | nil =>
      rw [List.compare_cons_nil]
      by_cases hc : c = 0
      · simp [escape, hc, List.compare_cons_cons, Std.OrientedCmp.gt_of_lt hterminator]
      · simp [escape, hc, List.compare_cons_cons, Std.OrientedCmp.gt_of_lt (compare_zero hc)]
    | cons d b =>
      rw [List.compare_cons_cons, Ordering.then_assoc, ← ih]
      by_cases hc : c = 0
      · by_cases hd : d = 0
        · simp [escape, hc, hd, List.compare_cons_cons]
        · simp [escape, hc, hd, List.compare_cons_cons, compare_zero hd]
      · by_cases hd : d = 0
        · simp [escape, hc, hd, List.compare_cons_cons,
            Std.OrientedCmp.gt_of_lt (compare_zero hc)]
        · simp [escape, hc, hd, List.compare_cons_cons]

theorem compare_ofText (s t : String) (x y : Bytes) :
    compare (ofText s ++ x) (ofText t ++ y) =
      (compare (Bytes.ofText s) (Bytes.ofText t)).then (compare x y) := by
  rw [ofText, ofText, List.append_assoc, List.append_assoc]
  exact compare_escape (Bytes.ofText s) (Bytes.ofText t) x y

/-- With its sign bit flipped a number stands as far above zero as it does above the least one. -/
theorem flip_eq (n : Int32) : (flip n : Int) = n.toInt + 0x80000000 := by
  have hvalue : n.toInt = if 2 * n.toUInt32.toNat < 2 ^ 32 then (n.toUInt32.toNat : Int)
      else n.toUInt32.toNat - (2 ^ 32 : Nat) := BitVec.toInt_eq_toNat_cond n.toBitVec
  rw [flip, toNat_xor, hvalue]
  split <;> split <;> omega

theorem compare_flip (m n : Int32) : compare (flip m) (flip n) = compare m.toInt n.toInt := by
  have hm := flip_eq m
  have hn := flip_eq n
  rcases Int.lt_trichotomy m.toInt n.toInt with h | h | h
  · rw [Int.compare_eq_lt.2 h, Nat.compare_eq_lt]
    omega
  · rw [h, Int.compare_eq_eq.2 rfl, Nat.compare_eq_eq]
    omega
  · rw [Int.compare_eq_gt.2 h, Nat.compare_eq_gt]
    omega

/-- Numbers one behind the other compare one by one. -/
theorem compare_flatMap_ofInt (ms ns : List Int32) :
    compare (ms.flatMap ofInt) (ns.flatMap ofInt) =
      compare (ms.map Int32.toInt) (ns.map Int32.toInt) := by
  induction ms generalizing ns with
  | nil => cases ns <;> rfl
  | cons m ms ih =>
    cases ns with
    | nil => rfl
    | cons n ns =>
      rw [List.flatMap_cons, List.flatMap_cons, compare_ofInt, compare_flip, ih, List.map_cons,
        List.map_cons, List.compare_cons_cons]

theorem compare_ofFields (s t : String) (ms ns : List Int32) :
    compare (ofFields s ms) (ofFields t ns) = compareFields s t ms ns := by
  rw [ofFields, ofFields, compare_ofText, compare_flatMap_ofInt, compareFields]

/-- A text alone begins the keys of the tuples that start with it, and no others. -/
theorem ofText_prefix_ofFields_iff {s t : String} {numbers : List Int32} :
    ofText s <+: ofFields t numbers ↔ s = t := by
  constructor
  · intro h
    exact eq_of_ofText_prefix h (List.prefix_append _ _)
  · rintro rfl
    exact List.prefix_append _ _

end Key

namespace RangeIndex
variable {α : Type} (x : RangeIndex α) (rows : Rows) {uri uri' : String}

theorem key_eq_ofFields (uri : String) (range : Range) (number : UInt32) :
    key uri range number =
      Key.ofFields uri [keyInt range.stop, -keyInt range.start, keyInt number] := by
  simp [key, Key.ofFields]

/-- The rows of a document are those under its keys, and no others begin as they do. -/
theorem ofText_prefix_key_iff {range : Range} {number : UInt32} :
    x.table.key (Key.ofText uri) <+: x.table.key (key uri' range number) ↔ uri = uri' := by
  rw [Table.key, Table.key, List.prefix_append_right_inj, key_eq_ofFields,
    Key.ofText_prefix_ofFields_iff]

/-- From wherever a scan of a document starts, it ends before the rows of the next one. -/
theorem eq_of_mem_scanFrom {start value : Bytes} {range : Range} {number : UInt32}
    (h : (x.table.key (key uri' range number), value) ∈
      rows.scanFrom start (x.table.key (Key.ofText uri))) : uri = uri' := by
  have hbegins := List.mem_takeWhile_imp h
  rwa [List.isPrefixOf_iff_prefix, ofText_prefix_key_iff] at hbegins

theorem mem_scan_document {value : Bytes} {range : Range} {number : UInt32} :
    (x.table.key (key uri' range number), value) ∈ rows.scan (x.table.key (Key.ofText uri)) ↔
      uri = uri' ∧ rows.get? (x.table.key (key uri' range number)) = some value := by
  rw [Rows.mem_scan, ofText_prefix_key_iff, and_comm]

/-- Removing a document leaves the rows of all others. -/
theorem get?_make_deleteAll (range : Range) (number : UInt32) :
    (rows.make (x.deleteAll uri)).get? (x.table.key (key uri' range number)) =
      if uri = uri' then none else rows.get? (x.table.key (key uri' range number)) := by
  rw [Rows.get?_make, deleteAll, Table.deleteAll, Change.effect]
  simp only [ofText_prefix_key_iff]

end RangeIndex

/-- Keys compare as the tuples that they are made of. One field alone begins the keys of the
tuples that start with it only, so neither a scan nor a removal of the rows of one document
reaches those of another. -/
theorem tuple_keys_ordered :
    (∀ u, Key.ofFields u [] = Key.ofText u ∧
      (∀ a b, Key.ofFields u [a, b] = Key.ofTuple u a b) ∧
      ∀ range number, RangeIndex.key u range number =
        Key.ofFields u [RangeIndex.keyInt range.stop, -RangeIndex.keyInt range.start,
          RangeIndex.keyInt number]) ∧
    (∀ s t ms ns, compare (Key.ofFields s ms) (Key.ofFields t ns) =
      Key.compareFields s t ms ns) ∧
    (∀ u v numbers, Key.ofFields u [] <+: Key.ofFields v numbers ↔ u = v) ∧
    ∀ {α : Type} (x : RangeIndex α) (rows : Rows) u v range number,
      (∀ start value, (x.table.key (RangeIndex.key v range number), value) ∈
        rows.scanFrom start (x.table.key (Key.ofText u)) → u = v) ∧
      (∀ value, (x.table.key (RangeIndex.key v range number), value) ∈
        rows.scan (x.table.key (Key.ofText u)) ↔
          u = v ∧ rows.get? (x.table.key (RangeIndex.key v range number)) = some value) ∧
      (rows.make (x.deleteAll u)).get? (x.table.key (RangeIndex.key v range number)) =
        if u = v then none else rows.get? (x.table.key (RangeIndex.key v range number)) := by
  refine ⟨fun u => ⟨Key.ofFields_nil u, Key.ofFields_pair u, RangeIndex.key_eq_ofFields u⟩,
    Key.compare_ofFields, fun u v numbers => ?_, fun x rows u v range number =>
      ⟨fun start value h => ?_, fun value => ?_, ?_⟩⟩
  · rw [Key.ofFields_nil]
    exact Key.ofText_prefix_ofFields_iff
  · exact x.eq_of_mem_scanFrom rows h
  · exact x.mem_scan_document rows
  · exact x.get?_make_deleteAll rows range number

/-- A text stands before a longer one and that before one that is larger at an earlier place; of
equal texts the smaller number stands first. -/
example :
    let tuples := [("", 0, 0), ("a", -1, 0), ("a", 10, 2), ("a", 10, 3), ("a\x00", 0, 0),
      ("ab", 0, 0), ("b", 1, 0)]
    (tuples.map fun (s, m, n) => Key.ofTuple s m n).Pairwise fun a b => compare a b = .lt := by
  decide +kernel

end PhpIndex
