import Mathlib.Data.List.Infix
import Mathlib.Order.Bounds.Basic
import PhpIndex.Document.Position

/-!
# Byte offsets between characters

A byte offset of a text lies between two characters, at one of its ends, or inside a character.
The first two are the boundaries of the text: the lengths of its beginnings. From every offset
there is a last boundary at or in front of it, and what lies between two boundaries can be cut
out of the bytes.
Main statements: `isGreatest_floorBoundary`, `Text.slice?_of_append`.
-/
namespace PhpIndex

namespace Position

@[simp] theorem byteLength_append (front back : List Char) :
    byteLength (front ++ back) = byteLength front + byteLength back := by
  induction front with
  | nil => simp [byteLength]
  | cons c rest ih => simp [byteLength, ih, Nat.add_assoc]

theorem byteLength_pos {chars : List Char} (h : chars ≠ []) : 0 < byteLength chars := by
  cases chars with
  | nil => exact absurd rfl h
  | cons c rest => exact Nat.add_pos_left c.utf8Size_pos _

theorem size_utf8Encode (chars : List Char) : chars.utf8Encode.size = byteLength chars := by
  induction chars with
  | nil => rfl
  | cons c rest ih =>
    rw [List.utf8Encode_cons, ByteArray.size_append, ih, byteLength, List.utf8Encode_singleton]
    simp

theorem byteLength_toList (text : String) : byteLength text.toList = text.utf8ByteSize := by
  rw [← size_utf8Encode, String.utf8ByteSize, ← String.toByteArray_ofList, String.ofList_toList]

theorem byteLength_le_of_isPrefix {front chars : List Char} (h : front <+: chars) :
    byteLength front ≤ byteLength chars := by
  obtain ⟨back, rfl⟩ := h
  simp

/-- Of two beginnings of a text the shorter one begins the other. -/
theorem prefix_of_byteLength_le {a b chars : List Char} (ha : a <+: chars) (hb : b <+: chars)
    (hle : byteLength a ≤ byteLength b) : a <+: b := by
  rcases List.prefix_or_prefix_of_prefix ha hb with h | ⟨back, rfl⟩
  · exact h
  · have hback : back = [] := by
      by_contra hne
      have hpos := byteLength_pos hne
      rw [byteLength_append] at hle
      omega
    rw [hback, List.append_nil]

/-! ## Boundaries -/

/-- Whether so many bytes of a text are whole characters. -/
def isBoundary : List Char → Nat → Bool
  | _, 0 => true
  | [], _ + 1 => false
  | c :: rest, n + 1 => c.utf8Size ≤ n + 1 && isBoundary rest (n + 1 - c.utf8Size)

theorem isBoundary_iff {chars : List Char} {n : Nat} :
    isBoundary chars n = true ↔ ∃ front, front <+: chars ∧ byteLength front = n := by
  fun_induction isBoundary chars n with
  | case1 chars => simpa using ⟨[], List.nil_prefix, rfl⟩
  | case2 n => simp [byteLength]
  | case3 c rest n ih =>
    rw [Bool.and_eq_true, decide_eq_true_eq, ih]
    constructor
    · rintro ⟨hle, front, hfront, hlength⟩
      exact ⟨c :: front, (List.prefix_cons_inj c).2 hfront, by rw [byteLength, hlength]; omega⟩
    · rintro ⟨front, hfront, hlength⟩
      cases front with
      | nil => cases hlength
      | cons d front =>
        obtain ⟨rfl, hrest⟩ := List.cons_prefix_cons.1 hfront
        rw [byteLength] at hlength
        exact ⟨by omega, front, hrest, by omega⟩

/-- The last boundary at an offset or in front of it. -/
def floorBoundary (chars : List Char) : Nat → Nat
  | 0 => 0
  | n + 1 => if isBoundary chars (n + 1) then n + 1 else floorBoundary chars n

theorem isGreatest_floorBoundary (chars : List Char) (n : Nat) :
    IsGreatest {k | isBoundary chars k = true ∧ k ≤ n} (floorBoundary chars n) := by
  fun_induction floorBoundary chars n with
  | case1 =>
    refine ⟨⟨?_, Nat.le_refl 0⟩, fun k hk => hk.2⟩
    unfold isBoundary
    rfl
  | case2 n h => exact ⟨⟨h, Nat.le_refl _⟩, fun k hk => hk.2⟩
  | case3 n h ih =>
    refine ⟨⟨ih.1.1, Nat.le_succ_of_le ih.1.2⟩, fun k ⟨hk, hle⟩ => ih.2 ⟨hk, ?_⟩⟩
    refine Nat.le_of_lt_succ (Nat.lt_of_le_of_ne hle ?_)
    rintro rfl
    exact h hk

theorem takeBytes_isPrefix (n : Nat) (chars : List Char) : Chars.takeBytes n chars <+: chars := by
  fun_induction Chars.takeBytes n chars with
  | case1 => exact List.nil_prefix
  | case2 n c rest h ih => exact (List.prefix_cons_inj c).2 ih
  | case3 => exact List.nil_prefix

theorem byteLength_takeBytes_le (n : Nat) (chars : List Char) :
    byteLength (Chars.takeBytes n chars) ≤ n := by
  fun_induction Chars.takeBytes n chars with
  | case1 => exact Nat.zero_le _
  | case2 n c rest h ih =>
    rw [byteLength]
    omega
  | case3 => exact Nat.zero_le _

/-- What fits into so many bytes is taken. -/
theorem prefix_takeBytes {n : Nat} {front chars : List Char} (h : front <+: chars)
    (hle : byteLength front ≤ n) : front <+: Chars.takeBytes n chars := by
  induction chars generalizing n front with
  | nil => rw [List.prefix_nil.1 h]; exact List.nil_prefix
  | cons c rest ih =>
    cases front with
    | nil => exact List.nil_prefix
    | cons d front =>
      obtain ⟨rfl, hrest⟩ := List.cons_prefix_cons.1 h
      rw [byteLength] at hle
      rw [Chars.takeBytes, if_pos (by omega)]
      exact (List.prefix_cons_inj d).2 (ih hrest (by omega))

theorem takeBytes_byteLength {front chars : List Char} (h : front <+: chars) :
    Chars.takeBytes (byteLength front) chars = front := by
  have hshort :=
    prefix_of_byteLength_le (takeBytes_isPrefix _ chars) h (byteLength_takeBytes_le _ _)
  exact hshort.eq_of_length_le (prefix_takeBytes h (Nat.le_refl _)).length_le

/-- The characters that end within so many bytes reach to the last boundary there. -/
theorem isGreatest_takeBytes (chars : List Char) (n : Nat) :
    IsGreatest {k | isBoundary chars k = true ∧ k ≤ n} (byteLength (Chars.takeBytes n chars)) := by
  have hboundary := isBoundary_iff.2 ⟨_, takeBytes_isPrefix n chars, rfl⟩
  refine ⟨⟨hboundary, byteLength_takeBytes_le n chars⟩, ?_⟩
  rintro k ⟨hk, hle⟩
  obtain ⟨front, hfront, rfl⟩ := isBoundary_iff.1 hk
  exact byteLength_le_of_isPrefix (prefix_takeBytes hfront hle)

end Position

namespace Text
open Position

/-- What lies between two boundaries can be cut out of the bytes. -/
theorem slice?_of_append {text : String} {front piece back : List Char}
    (h : text.toList = front ++ piece ++ back) :
    slice? text (byteLength front) (byteLength front + byteLength piece) =
      some (String.ofList piece) := by
  have hsize : byteLength front + byteLength piece ≤ text.utf8ByteSize := by
    rw [← byteLength_toList, h, byteLength_append, byteLength_append]
    exact Nat.le_add_right _ _
  have hbytes : text.toUTF8 = (front ++ piece ++ back).utf8Encode := by
    rw [← h, ← String.toByteArray_ofList, String.ofList_toList]
    rfl
  have hpiece : text.toUTF8.extract (byteLength front) (byteLength front + byteLength piece) =
      piece.utf8Encode := by
    have hbehind := ByteArray.extract_append_size_add' (b := (piece ++ back).utf8Encode) (i := 0)
      (j := byteLength piece) (size_utf8Encode front).symm
    rw [Nat.add_zero] at hbehind
    rw [hbytes, List.append_assoc, List.utf8Encode_append, hbehind, List.utf8Encode_append,
      ByteArray.extract_append_eq_left (size_utf8Encode piece).symm]
  rw [slice?, if_pos ⟨Nat.le_add_right _ _, hsize⟩, hpiece, String.fromUTF8?,
    dif_pos ⟨piece, rfl⟩]
  rfl

end Text
end PhpIndex
