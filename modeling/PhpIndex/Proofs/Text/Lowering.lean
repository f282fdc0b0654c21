import PhpIndex.Proofs.Store.Keys
import PhpIndex.Text.Lowering

/-!
# Lower case of whole texts

No character but zero itself has the zero character as its lower-case form, and a character that
is part of a lower-case form is its own lower-case form. A text in lower case so stays as it is.
Main statements: `nulFree_lower`, `lower_lower`.
-/
namespace PhpIndex.Text

/-- Whether the lower-case forms of a band of characters are characters other than zero. -/
def sendsToChars (e : Band × Int) : Bool :=
  0 < e.1.first + e.2 &&
    (e.1.last + e.2 < 0xD800 || (0xDFFF < e.1.first + e.2 && e.1.last + e.2 < 0x110000))

theorem all_sendsToChars : lowerFormBands.all sendsToChars = true := by decide +kernel

theorem ofNat_ne_zero {n : Nat} (h0 : 0 < n)
    (h : n < 0xD800 ∨ (0xDFFF < n ∧ n < 0x110000)) : Char.ofNat n ≠ '\x00' := by
  intro e
  have hvalid : n.isValidChar := h
  have hn := congrArg Char.toNat e
  rw [Char.ofNat, dif_pos hvalid] at hn
  have : n = 0 := hn
  omega

theorem zero_not_mem_lowerForm {c : Char} (hc : c ≠ '\x00') : '\x00' ∉ lowerForm c := by
  unfold lowerForm
  split
  · decide
  · split
    next e distance hfound =>
      have hband := List.all_eq_true.1 all_sendsToChars _ (List.mem_of_find?_eq_some hfound)
      have hhas := List.find?_some hfound
      simp only [sendsToChars, Band.has, Bool.and_eq_true, Bool.or_eq_true, decide_eq_true_eq]
        at hband hhas
      refine fun hzero => ofNat_ne_zero ?_ ?_ (List.mem_singleton.1 hzero).symm
      all_goals omega
    next => exact fun hzero => hc (List.mem_singleton.1 hzero).symm

theorem zero_not_mem_lowerFrom {before s : List Char} (h : '\x00' ∉ s) :
    '\x00' ∉ lowerFrom before s := by
  induction s generalizing before with
  | nil => exact List.not_mem_nil
  | cons c rest ih =>
    have hc : c ≠ '\x00' := fun e => h (e ▸ List.mem_cons_self)
    have hrest : '\x00' ∉ lowerFrom (c :: before) rest :=
      ih fun hz => h (List.mem_cons_of_mem c hz)
    unfold lowerFrom
    simp only [List.mem_append, not_or]
    refine ⟨?_, hrest⟩
    split
    · split <;> decide
    · exact zero_not_mem_lowerForm hc

theorem nulFree_lower {s : String} (h : NulFree s) : NulFree (lower s) := by
  unfold NulFree lower
  rw [String.toList_ofList]
  exact zero_not_mem_lowerFrom h

/-! ## Lower case twice -/

/-- The band of the lower-case forms of a band. -/
def Band.shift (b : Band) (distance : Int) : Band :=
  ⟨(b.first + distance).toNat, (b.last + distance).toNat, b.step⟩

/-- Whether two bands share no character. Where they overlap, both have every second character,
or one of them has a single one. -/
def Band.apart (a b : Band) : Bool :=
  Nat.blt a.last b.first || Nat.blt b.last a.first ||
    (b.step == 2 && (a.step == 2 || a.first == a.last) && (a.first + b.first) % 2 == 1)

theorem Band.not_has_of_apart {a b : Band} {n : Nat} (h : a.apart b) (hn : a.has n) :
    b.has n = false := by
  simp only [apart, has, Bool.or_eq_true, Bool.and_eq_true, decide_eq_true_eq, beq_iff_eq,
    Nat.blt_eq] at h hn
  rw [Bool.eq_false_iff]
  intro hhas
  simp only [has, Bool.and_eq_true, decide_eq_true_eq, beq_iff_eq] at hhas
  rcases h with (h | h) | ⟨⟨hstep, hstep' | hsingle⟩, hparity⟩
  · omega
  · omega
  · rw [hstep'] at hn
    rw [hstep] at hhas
    omega
  · rw [hstep] at hhas
    omega

theorem Band.has_shift {b : Band} {n m : Nat} {distance : Int} (hn : b.has n)
    (hfirst : 0 < b.first + distance) (hm : (m : Int) = n + distance) :
    (b.shift distance).has m := by
  simp only [shift, has, Bool.and_eq_true, decide_eq_true_eq, beq_iff_eq] at hn ⊢
  have hgap : m - (b.first + distance).toNat = n - b.first := by omega
  rw [hgap]
  obtain ⟨⟨hlow, hhigh⟩, hstep⟩ := hn
  exact ⟨⟨decide_eq_true (by omega), decide_eq_true (by omega)⟩, hstep⟩

/-- No lower-case form is in a band of characters that have one. -/
theorem all_apart : lowerFormBands.all (fun e => (e.1.shift e.2).apart ⟨0x130, 0x130, 1⟩ &&
    lowerFormBands.all fun b => (e.1.shift e.2).apart b.1) = true := by
  decide +kernel

/-- Whether lower case leaves the character as it is, wherever it stands. -/
def Settled (c : Char) : Prop := c ≠ 'Σ' ∧ lowerForm c = [c]

theorem settled_of_lowerForm {c : Char} (h : lowerForm c = [c]) : Settled c := by
  refine ⟨?_, h⟩
  rintro rfl
  exact absurd h (by decide)

theorem settled_of_not_has {c : Char} (hdotted : (⟨0x130, 0x130, 1⟩ : Band).has c.toNat = false)
    (hbands : ∀ e ∈ lowerFormBands, e.1.has c.toNat = false) : Settled c := by
  refine settled_of_lowerForm ?_
  have hne : c ≠ '\u0130' := by
    rintro rfl
    exact absurd hdotted (by decide)
  have hnone : lowerFormBands.find? (fun e => e.1.has c.toNat) = none :=
    List.find?_eq_none.2 fun e he => by simp [hbands e he]
  simp only [lowerForm, if_neg hne, hnone]

/-- The form of a character in a band is in no band. -/
theorem settled_of_mem_bands {c : Char} {e : Band × Int} (he : e ∈ lowerFormBands)
    (hhas : e.1.has c.toNat) : Settled (Char.ofNat (c.toNat + e.2).toNat) := by
  have hchars := List.all_eq_true.1 all_sendsToChars e he
  have hapart := List.all_eq_true.1 all_apart e he
  rw [Bool.and_eq_true, List.all_eq_true] at hapart
  have hband := hhas
  simp only [sendsToChars, Band.has, Bool.and_eq_true, Bool.or_eq_true, decide_eq_true_eq]
    at hchars hband
  have hvalid : ((c.toNat : Int) + e.2).toNat.isValidChar := by
    unfold Nat.isValidChar
    omega
  have hnat : (Char.ofNat ((c.toNat : Int) + e.2).toNat).toNat =
      ((c.toNat : Int) + e.2).toNat := by
    rw [Char.ofNat, dif_pos hvalid]
    rfl
  have hint : (((c.toNat : Int) + e.2).toNat : Int) = c.toNat + e.2 := by omega
  have hshift := Band.has_shift hhas hchars.1 hint
  refine settled_of_not_has ?_ fun b hb => ?_
  · rw [hnat]
    exact Band.not_has_of_apart hapart.1 hshift
  · rw [hnat]
    exact Band.not_has_of_apart (hapart.2 b hb) hshift

theorem settled_of_mem_lowerForm {c d : Char} (hc : c ≠ 'Σ') (h : d ∈ lowerForm c) :
    Settled d := by
  unfold lowerForm at h
  split at h
  next =>
    refine settled_of_lowerForm ?_
    rcases List.mem_cons.1 h with rfl | h
    · decide
    · obtain rfl := List.mem_singleton.1 h
      decide
  next hdotted =>
    split at h
    next e distance hfound =>
      obtain rfl := List.mem_singleton.1 h
      have hhas := List.find?_some hfound
      exact settled_of_mem_bands (List.mem_of_find?_eq_some hfound) hhas
    next hnone =>
      obtain rfl := List.mem_singleton.1 h
      refine ⟨hc, ?_⟩
      simp only [lowerForm, if_neg hdotted, hnone]

theorem settled_of_mem_lowerFrom {before s : List Char} {d : Char} (h : d ∈ lowerFrom before s) :
    Settled d := by
  induction s generalizing before with
  | nil => exact absurd h List.not_mem_nil
  | cons c rest ih =>
    unfold lowerFrom at h
    rcases List.mem_append.1 h with h | h
    · split at h
      next =>
        refine settled_of_lowerForm ?_
        split at h <;> obtain rfl := List.mem_singleton.1 h
        · decide
        · decide
      next hsigma => exact settled_of_mem_lowerForm hsigma h
    · exact ih h

theorem lowerFrom_of_settled (before : List Char) {s : List Char} (h : ∀ c ∈ s, Settled c) :
    lowerFrom before s = s := by
  induction s generalizing before with
  | nil => rfl
  | cons c rest ih =>
    obtain ⟨hsigma, hform⟩ := h c List.mem_cons_self
    have hrest := ih (c :: before) fun d hd => h d (List.mem_cons_of_mem c hd)
    simp only [lowerFrom, if_neg hsigma, hform, hrest, List.singleton_append]

theorem lower_lower (s : String) : lower (lower s) = lower s := by
  have hsettled : lowerFrom [] (lowerFrom [] s.toList) = lowerFrom [] s.toList :=
    lowerFrom_of_settled [] fun c hc => settled_of_mem_lowerFrom hc
  rw [lower, lower, String.toList_ofList, hsettled]

end PhpIndex.Text
