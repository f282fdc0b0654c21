import PhpIndex.Proofs.Store.Keys

/-!
# Text is read back with replacement

A reader that replaces what it cannot read has nothing to replace in the bytes of a text: of a
character it reads the bytes to the last one and makes the character of them.
Main statement: `Bytes.toTextLossy_ofText`.
-/
namespace PhpIndex.Bytes

/-! ## Characters by the number of their bytes -/

section Lengths
variable {a b c d : UInt8}

theorem isContinuation_iff : isContinuation b = true ↔ 0x80 ≤ b.toNat ∧ b.toNat < 0xC0 := by
  simp only [isContinuation, Bool.and_eq_true, decide_eq_true_eq, UInt8.le_iff_toNat_le]
  exact and_congr_right fun _ => Nat.lt_succ_iff.symm

theorem lossyChars_one (ha : a.toNat < 0x80) (rest : Bytes) :
    lossyChars (a :: rest) = Char.ofNat a.toNat :: lossyChars rest := by
  have hascii : a < 0x80 := UInt8.lt_iff_toNat_lt.2 ha
  rw [lossyChars.eq_def]
  simp only [if_pos hascii]

/-- The first byte of a longer character. -/
theorem not_single (ha : 0xC2 ≤ a.toNat) (ha' : a.toNat < 0xF5) :
    ¬ a < 0x80 ∧ (decide (a < 0xC2) || decide (0xF4 < a)) = false := by
  simp only [UInt8.lt_iff_toNat_lt, Bool.or_eq_false_iff, decide_eq_false_iff_not]
  refine ⟨Nat.not_lt.2 (Nat.le_trans (by decide) ha), Nat.not_lt.2 ha, ?_⟩
  exact Nat.not_lt.2 (Nat.le_of_lt_succ ha')

theorem lossyChars_two (ha : 0xC2 ≤ a.toNat) (ha' : a.toNat < 0xE0) (hb : mayFollow a b = true)
    (rest : Bytes) :
    lossyChars (a :: b :: rest) = charOf (a.toNat % 32) [b] :: lossyChars rest := by
  obtain ⟨h₁, h₂⟩ := not_single ha (Nat.lt_trans ha' (by decide))
  have h₃ : a < 0xE0 := UInt8.lt_iff_toNat_lt.2 ha'
  rw [lossyChars.eq_def]
  simp only [h₁, h₂, h₃, hb, if_true, if_false, Bool.not_true, Bool.false_eq_true]

theorem lossyChars_three (ha : 0xE0 ≤ a.toNat) (ha' : a.toNat < 0xF0) (hb : mayFollow a b = true)
    (hc : isContinuation c = true) (rest : Bytes) :
    lossyChars (a :: b :: c :: rest) = charOf (a.toNat % 16) [b, c] :: lossyChars rest := by
  obtain ⟨h₁, h₂⟩ := not_single (Nat.le_trans (by decide) ha) (Nat.lt_trans ha' (by decide))
  have h₃ : ¬ a < 0xE0 := fun h => Nat.not_lt.2 ha (UInt8.lt_iff_toNat_lt.1 h)
  have h₄ : a < 0xF0 := UInt8.lt_iff_toNat_lt.2 ha'
  rw [lossyChars.eq_def]
  simp only [h₁, h₂, h₃, h₄, hb, hc, if_true, if_false, Bool.not_true, Bool.false_eq_true]

theorem lossyChars_four (ha : 0xF0 ≤ a.toNat) (ha' : a.toNat < 0xF5) (hb : mayFollow a b = true)
    (hc : isContinuation c = true) (hd : isContinuation d = true) (rest : Bytes) :
    lossyChars (a :: b :: c :: d :: rest) =
      charOf (a.toNat % 8) [b, c, d] :: lossyChars rest := by
  obtain ⟨h₁, h₂⟩ := not_single (Nat.le_trans (by decide) ha) ha'
  have h₃ : ¬ a < 0xE0 := fun h =>
    Nat.not_lt.2 (Nat.le_trans (by decide) ha) (UInt8.lt_iff_toNat_lt.1 h)
  have h₄ : ¬ a < 0xF0 := fun h => Nat.not_lt.2 ha (UInt8.lt_iff_toNat_lt.1 h)
  rw [lossyChars.eq_def]
  simp only [h₁, h₂, h₃, h₄, hb, hc, hd, if_false, Bool.not_true, Bool.false_eq_true]

/-- The smallest and the largest first bytes exclude overlong forms, surrogates and numbers that
are too large. -/
theorem mayFollow_iff : mayFollow a b = true ↔ (0x80 ≤ b.toNat ∧ b.toNat < 0xC0) ∧
    (a.toNat = 0xE0 → 0xA0 ≤ b.toNat) ∧ (a.toNat = 0xED → b.toNat < 0xA0) ∧
    (a.toNat = 0xF0 → 0x90 ≤ b.toNat) ∧ (a.toNat = 0xF4 → b.toNat < 0x90) := by
  simp only [mayFollow, Bool.and_eq_true, isContinuation_iff, Bool.or_eq_true, bne_iff_ne,
    decide_eq_true_eq, UInt8.le_iff_toNat_le, ne_eq, ← UInt8.toNat_inj, and_assoc]
  simp only [UInt8.toNat_ofNat, Nat.reducePow, Nat.reduceMod]
  omega

end Lengths

/-! ## Encoded characters -/

theorem toNat_ofNat_of_lt_256 {n : Nat} (h : n < 256) : (UInt8.ofNat n).toNat = n := by
  rw [UInt8.toNat_ofNat']
  exact Nat.mod_eq_of_lt h

theorem lossyChars_utf8EncodeChar (c : Char) (rest : Bytes) :
    lossyChars (String.utf8EncodeChar c ++ rest) = c :: lossyChars rest := by
  have hvalid : c.val.toNat < 0xD800 ∨ 0xDFFF < c.val.toNat ∧ c.val.toNat < 0x110000 := c.valid
  have hchar : Char.ofNat c.val.toNat = c := Char.ofNat_toNat c
  unfold String.utf8EncodeChar
  generalize hv : c.val.toNat = v at hvalid hchar
  simp only
  have hlast : (UInt8.ofNat (v % 64 + 128)).toNat = v % 64 + 128 :=
    toNat_ofNat_of_lt_256 (by omega)
  have hthird : (UInt8.ofNat (v / 64 % 64 + 128)).toNat = v / 64 % 64 + 128 :=
    toNat_ofNat_of_lt_256 (by omega)
  have hsecond : (UInt8.ofNat (v / 4096 % 64 + 128)).toNat = v / 4096 % 64 + 128 :=
    toNat_ofNat_of_lt_256 (by omega)
  split
  case isTrue h =>
    have ha : (UInt8.ofNat v).toNat = v := toNat_ofNat_of_lt_256 (by omega)
    rw [List.singleton_append, lossyChars_one (by omega), ha, hchar]
  case isFalse h₁ =>
  split
  case isTrue h₂ =>
    have ha : (UInt8.ofNat (v / 64 % 32 + 192)).toNat = v / 64 + 192 := by
      rw [toNat_ofNat_of_lt_256 (by omega)]
      omega
    refine (lossyChars_two (by omega) (by omega) (mayFollow_iff.2 (by omega)) rest).trans ?_
    rw [charOf, List.foldl_cons, List.foldl_nil, ha, hlast, ← hchar]
    congr 2
    omega
  case isFalse h₂ =>
  split
  case isTrue h₃ =>
    have ha : (UInt8.ofNat (v / 4096 % 16 + 224)).toNat = v / 4096 + 224 := by
      rw [toNat_ofNat_of_lt_256 (by omega)]
      omega
    refine (lossyChars_three (by omega) (by omega) (mayFollow_iff.2 (by omega))
      (isContinuation_iff.2 (by omega)) rest).trans ?_
    rw [charOf, List.foldl_cons, List.foldl_cons, List.foldl_nil, ha, hthird, hlast, ← hchar]
    congr 2
    omega
  case isFalse h₃ =>
    have ha : (UInt8.ofNat (v / 262144 % 8 + 240)).toNat = v / 262144 + 240 := by
      rw [toNat_ofNat_of_lt_256 (by omega)]
      omega
    refine (lossyChars_four (by omega) (by omega) (mayFollow_iff.2 (by omega))
      (isContinuation_iff.2 (by omega)) (isContinuation_iff.2 (by omega)) rest).trans ?_
    rw [charOf, List.foldl_cons, List.foldl_cons, List.foldl_cons, List.foldl_nil, ha, hsecond,
      hthird, hlast, ← hchar]
    congr 2
    omega

@[simp] theorem toTextLossy_ofText (s : String) : toTextLossy (ofText s) = s := by
  have hchars (chars : List Char) : lossyChars (chars.flatMap String.utf8EncodeChar) = chars := by
    induction chars with
    | nil => rfl
    | cons c rest ih => rw [List.flatMap_cons, lossyChars_utf8EncodeChar, ih]
  rw [toTextLossy, ofText_eq_flatMap, hchars, String.ofList_toList]

end PhpIndex.Bytes
