import PhpIndex.Lookup.Context

/-!
# The first of the least

Which element is picked depends on the order of a list only where several have the least measure.
If the elements of one measure stand in the order of a second measure, the element picked is the
one that is least by both, whatever the order of the list is otherwise.
Main statements: `leastBy_eq_of_perm`, `leastBy_eq_head?`.
-/
namespace PhpIndex
variable {α β : Type} {measure tie : α → Nat} {l l' : List α}

/-- Whether elements of one measure stand in ascending order of the other. -/
def Ascends (measure tie : α → Nat) (l : List α) : Prop :=
  l.Pairwise fun a b => measure a = measure b → tie a < tie b

/-- Whether the element is the least by its measure, and of several by the other one. -/
structure IsLeast (measure tie : α → Nat) (l : List α) (a : α) : Prop where
  mem : a ∈ l
  le : ∀ b ∈ l, measure a ≤ measure b
  first : ∀ b ∈ l, measure b = measure a → b = a ∨ tie a < tie b

theorem IsLeast.unique {a b : α} (ha : IsLeast measure tie l a) (hb : IsLeast measure tie l b) :
    a = b := by
  have hle := ha.le b hb.mem
  have hge := hb.le a ha.mem
  rcases ha.first b hb.mem (by omega) with h | h
  · exact h.symm
  · rcases hb.first a ha.mem (by omega) with h' | h'
    · exact h'
    · omega

theorem leastBy_nil : leastBy measure [] = none := rfl

theorem leastBy_cons (a : α) (rest : List α) : leastBy measure (a :: rest) =
    match leastBy measure rest with
    | some b => if measure b < measure a then some b else some a
    | none => some a := rfl

theorem leastBy_eq_none : leastBy measure l = none ↔ l = [] := by
  cases l with
  | nil => exact iff_of_true leastBy_nil rfl
  | cons a rest =>
    have hsome : leastBy measure (a :: rest) ≠ none := by
      rw [leastBy_cons]
      split
      · split <;> simp
      · simp
    simp [hsome]

theorem mem_of_leastBy {a : α} (h : leastBy measure l = some a) : a ∈ l := by
  induction l generalizing a with
  | nil => cases h
  | cons c rest ih =>
    cases hrest : leastBy measure rest with
    | none =>
      rw [leastBy_cons, hrest] at h
      obtain rfl := Option.some.inj h
      exact List.mem_cons_self
    | some b =>
      have hb := ih hrest
      simp only [leastBy_cons, hrest] at h
      split at h
      · obtain rfl := Option.some.inj h
        exact List.mem_cons_of_mem c hb
      · obtain rfl := Option.some.inj h
        exact List.mem_cons_self

theorem le_of_leastBy {a b : α} (h : leastBy measure l = some a) (hb : b ∈ l) :
    measure a ≤ measure b := by
  induction l generalizing a with
  | nil => exact absurd hb List.not_mem_nil
  | cons c rest ih =>
    cases hrest : leastBy measure rest with
    | none =>
      obtain rfl := leastBy_eq_none.1 hrest
      obtain rfl := List.mem_singleton.1 hb
      obtain rfl : b = a := Option.some.inj h
      exact Nat.le_refl _
    | some d =>
      simp only [leastBy_cons, hrest] at h
      split at h
      next hlt =>
        obtain rfl := Option.some.inj h
        rcases List.mem_cons.1 hb with rfl | hb
        · omega
        · exact ih hrest hb
      next hle =>
        obtain rfl := Option.some.inj h
        rcases List.mem_cons.1 hb with rfl | hb
        · exact Nat.le_refl _
        · have := ih hrest hb
          omega

theorem isLeast_leastBy (h : Ascends measure tie l) {a : α} (ha : leastBy measure l = some a) :
    IsLeast measure tie l a := by
  induction l generalizing a with
  | nil => cases ha
  | cons c rest ih =>
    have htail := List.pairwise_cons.1 h
    cases hrest : leastBy measure rest with
    | none =>
      have hnil := leastBy_eq_none.1 hrest
      subst hnil
      have hac : c = a := Option.some.inj ha
      subst hac
      exact ⟨by simp, by simp, by simp⟩
    | some b =>
      have hb := ih htail.2 hrest
      simp only [leastBy_cons, hrest] at ha
      split at ha
      next hlt =>
        obtain rfl := Option.some.inj ha
        refine ⟨List.mem_cons_of_mem c hb.mem, fun d hd => ?_, fun d hd hmeasure => ?_⟩
        · rcases List.mem_cons.1 hd with rfl | hd
          · omega
          · exact hb.le d hd
        · rcases List.mem_cons.1 hd with rfl | hd
          · omega
          · exact hb.first d hd hmeasure
      next hle =>
        obtain rfl := Option.some.inj ha
        refine ⟨List.mem_cons_self, fun d hd => ?_, fun d hd hmeasure => ?_⟩
        · rcases List.mem_cons.1 hd with rfl | hd
          · omega
          · have := hb.le d hd
            omega
        · rcases List.mem_cons.1 hd with rfl | hd
          · exact .inl rfl
          · exact .inr (htail.1 d hd hmeasure.symm)

theorem leastBy_eq_of_perm (hperm : l.Perm l') (h : Ascends measure tie l)
    (h' : Ascends measure tie l') : leastBy measure l = leastBy measure l' := by
  cases hl : leastBy measure l with
  | none =>
    have hnil := leastBy_eq_none.1 hl
    subst hnil
    exact (leastBy_eq_none.2 hperm.nil_eq.symm).symm
  | some a =>
    cases hl' : leastBy measure l' with
    | none =>
      have hnil := leastBy_eq_none.1 hl'
      subst hnil
      rw [hperm.eq_nil] at hl
      cases hl
    | some b =>
      have ha := isLeast_leastBy h hl
      have hb := isLeast_leastBy h' hl'
      have hb' : IsLeast measure tie l b :=
        ⟨hperm.mem_iff.2 hb.mem, fun d hd => hb.le d (hperm.mem_iff.1 hd),
          fun d hd => hb.first d (hperm.mem_iff.1 hd)⟩
      rw [ha.unique hb']

/-- In ascending order of the measure the first element is picked. -/
theorem leastBy_eq_head? (h : l.Pairwise fun a b => measure a ≤ measure b) :
    leastBy measure l = l.head? := by
  induction l with
  | nil => rfl
  | cons a rest ih =>
    have htail := List.pairwise_cons.1 h
    rw [leastBy_cons, ih htail.2]
    cases rest with
    | nil => rfl
    | cons b more =>
      have hle := htail.1 b List.mem_cons_self
      have hnot : ¬ measure b < measure a := by omega
      simp [hnot]

theorem leastBy_map (f : β → α) (l : List β) :
    leastBy measure (l.map f) = (leastBy (fun b => measure (f b)) l).map f := by
  induction l with
  | nil => rfl
  | cons b rest ih =>
    rw [List.map_cons, leastBy_cons, leastBy_cons, ih]
    cases leastBy (fun b => measure (f b)) rest with
    | none => rfl
    | some c =>
      by_cases hlt : measure (f c) < measure (f b)
      · simp [hlt]
      · simp [hlt]

theorem leastBy_congr {measure' : α → Nat} (h : ∀ a ∈ l, measure a = measure' a) :
    leastBy measure l = leastBy measure' l := by
  induction l with
  | nil => rfl
  | cons a rest ih =>
    have hrest := ih fun b hb => h b (List.mem_cons_of_mem a hb)
    have ha := h a List.mem_cons_self
    rw [leastBy_cons, leastBy_cons, hrest]
    cases hleast : leastBy measure' rest with
    | none => rfl
    | some b =>
      have hb := h b (List.mem_cons_of_mem a (mem_of_leastBy hleast))
      simp only [ha, hb]

end PhpIndex
