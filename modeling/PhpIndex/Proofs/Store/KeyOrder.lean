import PhpIndex.Index.Ranges
import PhpIndex.Proofs.Store.Rows

/-!
# Order of range keys

Bytes of numbers compare as the numbers do, so the keys of ranges compare first by the end, then
by the start the other way round, then by the number. This holds for offsets below the sign bit:
all others are cut off in the keys.
Main statements: `RangeIndex.compare_key`, `RangeIndex.readStart_key`.
-/
namespace PhpIndex
namespace Bytes

/-- Strings of bytes compare part by part where the first parts are of one length. -/
theorem compare_append_of_length_eq {a b x y : Bytes} (h : a.length = b.length) :
    compare (a ++ x) (b ++ y) = (compare a b).then (compare x y) := by
  induction a generalizing b with
  | nil =>
    cases b with
    | nil => simp
    | cons _ _ => simp at h
  | cons c a ih =>
    cases b with
    | nil => simp at h
    | cons d b =>
      have hlength : a.length = b.length := by simpa using h
      rw [List.cons_append, List.cons_append, List.compare_cons_cons, List.compare_cons_cons,
        ih hlength, Ordering.then_assoc]

theorem compare_append_left (lead x y : Bytes) :
    compare (lead ++ x) (lead ++ y) = compare x y := by
  have hlead : compare lead lead = .eq := Std.ReflCmp.compare_self
  rw [compare_append_of_length_eq rfl, hlead]
  rfl

theorem compare_toNat (a b : UInt8) : compare a.toNat b.toNat = compare a b := by
  simp only [compare, compareOfLessAndEq, UInt8.lt_iff_toNat_lt, ← UInt8.toNat_inj]

/-- Numbers compare digit by digit. -/
theorem compare_digits {base x y a b : Nat} (ha : a < base) (hb : b < base) :
    compare (x * base + a) (y * base + b) = (compare x y).then (compare a b) := by
  have hstep {m n : Nat} (h : m < n) : m * base + base ≤ n * base := by
    rw [← Nat.succ_mul]
    exact Nat.mul_le_mul_right base h
  cases hxy : compare x y with
  | lt =>
    have hle := hstep (Nat.compare_eq_lt.1 hxy)
    simp only [Ordering.then]
    rw [Nat.compare_eq_lt]
    omega
  | eq =>
    rw [Nat.compare_eq_eq] at hxy
    subst hxy
    simp only [Ordering.then]
    cases hab : compare a b with
    | lt => rw [Nat.compare_eq_lt] at hab ⊢; omega
    | eq => rw [Nat.compare_eq_eq] at hab ⊢; omega
    | gt => rw [Nat.compare_eq_gt] at hab ⊢; omega
  | gt =>
    have hle := hstep (Nat.compare_eq_gt.1 hxy)
    simp only [Ordering.then]
    rw [Nat.compare_eq_gt]
    omega

theorem compare_ofUInt32 (m n : UInt32) :
    compare (ofUInt32 m) (ofUInt32 n) = compare m.toNat n.toNat := by
  obtain ⟨a, b, c, d, hm, hmvalue⟩ := ofUInt32_toUInt32 m
  obtain ⟨a', b', c', d', hn, hnvalue⟩ := ofUInt32_toUInt32 n
  have hvalue (a b c d : UInt8) : (toUInt32 a b c d).toNat =
      ((a.toNat * 256 + b.toNat) * 256 + c.toNat) * 256 + d.toNat := by
    have := a.toNat_lt
    have := b.toNat_lt
    have := c.toNat_lt
    have := d.toNat_lt
    simp only [toUInt32, UInt32.toNat_ofNat']
    omega
  rw [hm, hn, ← hmvalue, ← hnvalue, hvalue, hvalue, compare_digits d.toNat_lt d'.toNat_lt,
    compare_digits c.toNat_lt c'.toNat_lt, compare_digits b.toNat_lt b'.toNat_lt]
  simp only [List.compare_cons_cons, compare_toNat, Ordering.then_assoc, List.compare_nil_nil,
    Ordering.then_eq]
end Bytes

namespace Key

theorem toNat_xor (n : UInt32) : (n ^^^ 0x80000000).toNat =
    if n.toNat < 0x80000000 then n.toNat + 0x80000000 else n.toNat - 0x80000000 := by
  have hlt := n.toNat_lt
  have hdiv : (n.toNat ^^^ 2 ^ 31) / 2 ^ 31 = n.toNat / 2 ^ 31 ^^^ 1 := by
    rw [Nat.xor_div_two_pow, Nat.div_self (by decide)]
  have hmod : (n.toNat ^^^ 2 ^ 31) % 2 ^ 31 = n.toNat % 2 ^ 31 := by
    rw [Nat.xor_mod_two_pow, Nat.mod_self, Nat.xor_zero]
  have hxor : (n ^^^ 0x80000000).toNat = n.toNat ^^^ 2 ^ 31 := UInt32.toNat_xor n 0x80000000
  rw [hxor]
  split
  next hsmall =>
    have hzero : n.toNat / 2 ^ 31 = 0 := by omega
    rw [hzero] at hdiv
    have : (0 ^^^ 1 : Nat) = 1 := rfl
    omega
  next hlarge =>
    have hone : n.toNat / 2 ^ 31 = 1 := by omega
    rw [hone] at hdiv
    have : (1 ^^^ 1 : Nat) = 0 := rfl
    omega

theorem keyInt_of_lt {n : UInt32} (h : n.toNat < 0x80000000) :
    RangeIndex.keyInt n = n.toInt32 := if_pos h

/-- A number after its sign bit was flipped. -/
def flip (n : Int32) : Nat := (n.toUInt32 ^^^ 0x80000000).toNat

theorem compare_ofInt (m n : Int32) (x y : Bytes) :
    compare (ofInt m ++ x) (ofInt n ++ y) = (compare (flip m) (flip n)).then (compare x y) := by
  have hlength : (ofInt m).length = (ofInt n).length := rfl
  rw [Bytes.compare_append_of_length_eq hlength]
  exact congrArg (Ordering.then · _) (Bytes.compare_ofUInt32 _ _)

theorem flip_keyInt {n : UInt32} (h : n.toNat < 0x80000000) :
    flip (RangeIndex.keyInt n) = n.toNat + 0x80000000 := by
  rw [flip, keyInt_of_lt h, UInt32.toUInt32_toInt32, toNat_xor, if_pos h]

theorem flip_neg_keyInt {n : UInt32} (h : n.toNat < 0x80000000) :
    flip (-RangeIndex.keyInt n) = 0x80000000 - n.toNat := by
  have hneg : (-n.toInt32).toUInt32 = -n := rfl
  have hvalue : (-n).toNat = (4294967296 - n.toNat) % 4294967296 := UInt32.toNat_neg n
  rw [flip, keyInt_of_lt h, hneg, toNat_xor]
  split <;> omega

theorem readInt_ofInt (n : Int32) (rest : Bytes) : readInt (ofInt n ++ rest) = (.ok n, rest) := by
  obtain ⟨a, b, c, d, hbytes, hvalue⟩ := Bytes.ofUInt32_toUInt32 (n.toUInt32 ^^^ 0x80000000)
  have hback : (n.toUInt32 ^^^ 0x80000000) ^^^ 0x80000000 = n.toUInt32 := by
    rw [UInt32.xor_assoc, UInt32.xor_self, UInt32.xor_zero]
  rw [ofInt, hbytes]
  simp only [List.cons_append, List.nil_append, readInt, hvalue, hback, Int32.toInt32_toUInt32]

theorem natAbs_neg_keyInt {n : UInt32} (h : n.toNat < 0x80000000) :
    UInt32.ofNat (-RangeIndex.keyInt n).toInt.natAbs = n := by
  have hvalue : n.toInt32.toInt = n.toNat := by
    refine BitVec.toInt_eq_toNat_of_lt ?_
    change 2 * n.toNat < 2 ^ 32
    omega
  have hmod : (-(n.toNat : Int)).bmod (2 ^ 32) = -n.toNat := by
    refine Int.bmod_eq_of_le ?_ ?_ <;> omega
  rw [keyInt_of_lt h, Int32.toInt_neg, hvalue, hmod, Int.natAbs_neg, Int.natAbs_natCast]
  exact UInt32.ofNat_toNat

end Key

namespace Range

/-- Whether both offsets stand in keys as they are. -/
def Keyed (r : Range) : Prop := r.start.toNat < 0x80000000 ∧ r.stop.toNat < 0x80000000

/-- Least for a range with the smallest end, and of those for the one with the latest start. -/
def innerness (r : Range) : Nat :=
  r.stop.toNat * UInt32.size + (UInt32.size - 1 - r.start.toNat)

theorem compare_innerness (r r' : Range) : compare r.innerness r'.innerness =
    (compare r.stop.toNat r'.stop.toNat).then (compare r'.start.toNat r.start.toNat) := by
  have hr : r.start.toNat < UInt32.size := r.start.toNat_lt
  have hr' : r'.start.toNat < UInt32.size := r'.start.toNat_lt
  rw [innerness, innerness, Bytes.compare_digits (by omega) (by omega)]
  congr 1
  rcases Nat.lt_trichotomy r.start.toNat r'.start.toNat with h | h | h
  · rw [Nat.compare_eq_gt.2 h, Nat.compare_eq_gt]
    omega
  · rw [h, Nat.compare_eq_eq.2 rfl, Nat.compare_eq_eq.2 rfl]
  · rw [Nat.compare_eq_lt.2 h, Nat.compare_eq_lt]
    omega

end Range

namespace RangeIndex

theorem compare_flip_keyInt {m n : UInt32} (hm : m.toNat < 0x80000000)
    (hn : n.toNat < 0x80000000) :
    compare (Key.flip (keyInt m)) (Key.flip (keyInt n)) = compare m.toNat n.toNat := by
  rw [Key.flip_keyInt hm, Key.flip_keyInt hn]
  rcases Nat.lt_trichotomy m.toNat n.toNat with h | h | h
  · rw [Nat.compare_eq_lt.2 h, Nat.compare_eq_lt]
    omega
  · rw [Nat.compare_eq_eq.2 h, Nat.compare_eq_eq]
    omega
  · rw [Nat.compare_eq_gt.2 h, Nat.compare_eq_gt]
    omega

theorem compare_flip_neg_keyInt {m n : UInt32} (hm : m.toNat < 0x80000000)
    (hn : n.toNat < 0x80000000) :
    compare (Key.flip (-keyInt m)) (Key.flip (-keyInt n)) = compare n.toNat m.toNat := by
  rw [Key.flip_neg_keyInt hm, Key.flip_neg_keyInt hn]
  rcases Nat.lt_trichotomy n.toNat m.toNat with h | h | h
  · rw [Nat.compare_eq_lt.2 h, Nat.compare_eq_lt]
    omega
  · rw [Nat.compare_eq_eq.2 h, Nat.compare_eq_eq]
    omega
  · rw [Nat.compare_eq_gt.2 h, Nat.compare_eq_gt]
    omega

/-- Keys of one document compare as the ranges do. -/
theorem compare_key (uri : String) {r r' : Range} (hr : r.Keyed) (hr' : r'.Keyed) {i j : Nat}
    (hi : i < 0x80000000) (hj : j < 0x80000000) :
    compare (key uri r (.ofNat i)) (key uri r' (.ofNat j)) =
      (compare r.innerness r'.innerness).then (compare i j) := by
  have hnumber {n : Nat} (h : n < 0x80000000) : (UInt32.ofNat n).toNat = n := by
    rw [UInt32.toNat_ofNat']
    omega
  have hlast : compare (Key.ofInt (keyInt (.ofNat i))) (Key.ofInt (keyInt (.ofNat j))) =
      compare i j := by
    have hflip := compare_flip_keyInt (m := .ofNat i) (n := .ofNat j) (by rwa [hnumber hi])
      (by rwa [hnumber hj])
    rw [hnumber hi, hnumber hj] at hflip
    rw [← hflip]
    exact Bytes.compare_ofUInt32 _ _
  simp only [key, List.append_assoc]
  rw [Bytes.compare_append_left, Key.compare_ofInt, Key.compare_ofInt, hlast,
    compare_flip_keyInt hr.2 hr'.2, compare_flip_neg_keyInt hr.1 hr'.1,
    Range.compare_innerness, Ordering.then_assoc]

/-- The number is read off a key whatever the range is. -/
theorem number_eq {uri : String} {r r' : Range} {i j : Nat} (hi : i < 0x80000000)
    (hj : j < 0x80000000) (h : key uri r (.ofNat i) = key uri r' (.ofNat j)) : i = j := by
  have hlast := (List.append_inj' h rfl).2
  have hread := (Key.readInt_ofInt (keyInt (.ofNat i)) []).symm.trans
    ((congrArg (fun b => Key.readInt (b ++ [])) hlast).trans (Key.readInt_ofInt _ []))
  have hflip := congrArg Key.flip (Except.ok.inj (Prod.mk.inj hread).1)
  have hnumber {n : Nat} (h : n < 0x80000000) : (UInt32.ofNat n).toNat = n := by
    rw [UInt32.toNat_ofNat']
    omega
  rw [Key.flip_keyInt (by rwa [hnumber hi]), Key.flip_keyInt (by rwa [hnumber hj]), hnumber hi,
    hnumber hj] at hflip
  omega

/-- Where a scan from an offset on starts. -/
theorem compare_key_offset (uri : String) {r : Range} (hr : r.Keyed) (number : UInt32)
    {offset : UInt32} (hoffset : offset.toNat < 0x80000000) :
    compare (key uri r number) (Key.ofText uri ++ Key.ofInt (keyInt offset)) ≠ .lt ↔
      offset ≤ r.stop := by
  have hshort : compare (Key.ofInt (-keyInt r.start) ++ Key.ofInt (keyInt number)) [] = .gt := rfl
  have hoffset' : Key.ofInt (keyInt offset) = Key.ofInt (keyInt offset) ++ [] :=
    (List.append_nil _).symm
  simp only [key, List.append_assoc]
  rw [Bytes.compare_append_left, hoffset', Key.compare_ofInt, compare_flip_keyInt hr.2 hoffset,
    hshort, UInt32.le_iff_toNat_le]
  rcases Nat.lt_trichotomy r.stop.toNat offset.toNat with h | h | h
  · simp [Nat.compare_eq_lt.2 h, h]
  · simp [h]
  · simp [Nat.compare_eq_gt.2 h, Nat.le_of_lt h]

/-- The start of a range is read back from its key. -/
theorem readStart_key (uri : String) {r : Range} (hr : r.Keyed) (number : UInt32) :
    readStart ((key uri r number).drop (Key.ofText uri).length) = .ok r.start := by
  simp only [key, List.append_assoc, List.drop_left, readStart, Key.readInt_ofInt]
  rw [Key.natAbs_neg_keyInt hr.1]

end RangeIndex
end PhpIndex
