import PhpIndex.Text.Lowering

/-!
# Lower case of a beginning

Every character of a text has its lower-case form by itself, a capital sigma apart: that one looks
at what is around it. What a text begins with so has the same lower-case form alone as in the
text, unless it is cut behind a capital sigma that is the end of a word only where it is cut.
Main statement: `lowerFrom_isPrefix_iff`.
-/
namespace PhpIndex.Text

/-- Whether the text ends in a capital sigma that ends a word, given what stands before the text,
nearest character first. Nothing behind the sigma counts for case. -/
def EndsInSigma (before s : List Char) : Prop :=
  ∃ front back, s = front ++ 'Σ' :: back ∧ meetsCased (front.reverse ++ before) ∧
    ∀ c ∈ back, isCaseIgnorable c

/-- Whether the cut between the two parts of a text makes a capital sigma the end of a word. -/
def CutsSigma (typed rest : List Char) : Prop := EndsInSigma [] typed ∧ meetsCased rest

/-! ## Characters that count for case -/

theorem meetsCased_cons_of_ignorable {c : Char} (h : isCaseIgnorable c) (s : List Char) :
    meetsCased (c :: s) = meetsCased s := by
  rw [meetsCased, List.dropWhile_cons_of_pos h, meetsCased]

theorem meetsCased_cons_of_not_ignorable {c : Char} (h : ¬ isCaseIgnorable c) (s : List Char) :
    meetsCased (c :: s) = isCased c := by
  rw [meetsCased, List.dropWhile_cons_of_neg h]

theorem meetsCased_append_of_ignorable {s : List Char} (h : ∀ c ∈ s, isCaseIgnorable c)
    (after : List Char) : meetsCased (s ++ after) = meetsCased after := by
  induction s with
  | nil => rfl
  | cons c rest ih =>
    rw [List.cons_append, meetsCased_cons_of_ignorable (h c List.mem_cons_self)]
    exact ih fun d hd => h d (List.mem_cons_of_mem c hd)

/-- The first character that counts for case decides, whatever follows. -/
theorem meetsCased_append_of_not_ignorable {s : List Char} (h : ¬ ∀ c ∈ s, isCaseIgnorable c)
    (after : List Char) : meetsCased (s ++ after) = meetsCased s := by
  induction s with
  | nil => exact absurd nofun h
  | cons c rest ih =>
    rw [List.cons_append]
    by_cases hc : isCaseIgnorable c
    · rw [meetsCased_cons_of_ignorable hc, meetsCased_cons_of_ignorable hc]
      exact ih fun hrest => h (List.forall_mem_cons.2 ⟨hc, hrest⟩)
    · rw [meetsCased_cons_of_not_ignorable hc, meetsCased_cons_of_not_ignorable hc]

/-- What follows a text changes what is met in it where nothing in the text counts for case and a
cased character follows. -/
theorem meetsCased_append_eq_iff (s after : List Char) :
    meetsCased (s ++ after) = meetsCased s ↔
      ¬ ((∀ c ∈ s, isCaseIgnorable c) ∧ meetsCased after) := by
  by_cases hs : ∀ c ∈ s, isCaseIgnorable c
  · have hnone : meetsCased s = false := by
      simpa [meetsCased] using meetsCased_append_of_ignorable hs []
    rw [meetsCased_append_of_ignorable hs, hnone, and_iff_right hs, Bool.not_eq_true]
  · exact iff_of_true (meetsCased_append_of_not_ignorable hs after) fun h => hs h.1

/-! ## Lower case with a text behind -/

/-- The lower-case form of a character between two texts. -/
def formBetween (before : List Char) (c : Char) (after : List Char) : List Char :=
  if c = 'Σ' then
    if meetsCased before && !meetsCased after then ['ς'] else ['σ']
  else lowerForm c

/-- The lower-case form of a text, given what stands before and behind it. -/
def lowerWithin (before : List Char) : List Char → List Char → List Char
  | [], _ => []
  | c :: rest, after => formBetween before c (rest ++ after) ++ lowerWithin (c :: before) rest after

theorem lowerFrom_append (before s after : List Char) :
    lowerFrom before (s ++ after) =
      lowerWithin before s after ++ lowerFrom (s.reverse ++ before) after := by
  induction s generalizing before with
  | nil => rfl
  | cons c rest ih =>
    rw [List.cons_append, lowerFrom, lowerWithin, ih, List.reverse_cons, List.append_assoc,
      List.append_assoc]
    rfl

theorem lowerFrom_eq_lowerWithin (before s : List Char) :
    lowerFrom before s = lowerWithin before s [] := by
  simpa [lowerFrom] using lowerFrom_append before s []

theorem length_formBetween (before after after' : List Char) (c : Char) :
    (formBetween before c after).length = (formBetween before c after').length := by
  have hsigma (b : Bool) : (if b then ['ς'] else ['σ']).length = 1 := by cases b <;> rfl
  unfold formBetween
  split
  · rw [hsigma, hsigma]
  · rfl

theorem length_lowerWithin (before s after after' : List Char) :
    (lowerWithin before s after).length = (lowerWithin before s after').length := by
  induction s generalizing before with
  | nil => rfl
  | cons c rest ih =>
    rw [lowerWithin, lowerWithin, List.length_append, List.length_append, ih,
      length_formBetween before _ (rest ++ after')]

/-- What follows a character has a say in its form where that is a capital sigma behind a cased
character. -/
theorem formBetween_eq_iff (before after after' : List Char) (c : Char) :
    formBetween before c after = formBetween before c after' ↔
      ¬ (c = 'Σ' ∧ meetsCased before ∧ meetsCased after ≠ meetsCased after') := by
  unfold formBetween
  by_cases hc : c = 'Σ'
  · rw [if_pos hc, if_pos hc]
    cases meetsCased before <;> cases meetsCased after <;> cases meetsCased after' <;> simp [hc]
  · rw [if_neg hc, if_neg hc]
    exact iff_of_true rfl fun h => hc h.1

theorem endsInSigma_cons (before rest : List Char) (c : Char) :
    EndsInSigma before (c :: rest) ↔
      (c = 'Σ' ∧ meetsCased before ∧ ∀ d ∈ rest, isCaseIgnorable d) ∨
        EndsInSigma (c :: before) rest := by
  constructor
  · rintro ⟨front, back, heq, hcased, hback⟩
    cases front with
    | nil =>
      obtain ⟨rfl, rfl⟩ := List.cons.inj heq
      exact .inl ⟨rfl, hcased, hback⟩
    | cons d front =>
      obtain ⟨rfl, rfl⟩ := List.cons.inj heq
      rw [List.reverse_cons, List.append_assoc] at hcased
      exact .inr ⟨front, back, rfl, hcased, hback⟩
  · rintro (⟨rfl, hcased, hback⟩ | ⟨front, back, rfl, hcased, hback⟩)
    · exact ⟨[], rest, rfl, hcased, hback⟩
    · refine ⟨c :: front, back, rfl, ?_, hback⟩
      rwa [List.reverse_cons, List.append_assoc]

theorem lowerWithin_eq_iff (before s after : List Char) :
    lowerWithin before s [] = lowerWithin before s after ↔
      ¬ (EndsInSigma before s ∧ meetsCased after) := by
  induction s generalizing before with
  | nil =>
    refine iff_of_true rfl ?_
    rintro ⟨⟨front, back, heq, -⟩, -⟩
    exact absurd heq.symm (List.append_ne_nil_of_right_ne_nil _ (List.cons_ne_nil _ _))
  | cons c rest ih =>
    have hform : formBetween before c (rest ++ []) = formBetween before c (rest ++ after) ↔
        ¬ ((c = 'Σ' ∧ meetsCased before ∧ ∀ d ∈ rest, isCaseIgnorable d) ∧
          meetsCased after) := by
      rw [formBetween_eq_iff, List.append_nil, ne_comm, Ne, meetsCased_append_eq_iff,
        Classical.not_not, and_assoc, and_assoc]
    rw [endsInSigma_cons, or_and_right, not_or, ← hform, ← ih, lowerWithin, lowerWithin]
    constructor
    · exact fun h => List.append_inj h (length_formBetween before _ _ c)
    · rintro ⟨hhead, htail⟩
      rw [hhead, htail]

/-- The lower-case form of what a text begins with begins that of the text, unless the cut makes
a capital sigma the end of a word. -/
theorem lowerFrom_isPrefix_iff (typed rest : List Char) :
    lowerFrom [] typed <+: lowerFrom [] (typed ++ rest) ↔ ¬ CutsSigma typed rest := by
  rw [CutsSigma, ← lowerWithin_eq_iff, lowerFrom_append, lowerFrom_eq_lowerWithin]
  constructor
  · intro hbegins
    have hshort : lowerWithin [] typed [] <+: lowerWithin [] typed rest :=
      List.prefix_of_prefix_length_le hbegins (List.prefix_append _ _)
        (Nat.le_of_eq (length_lowerWithin [] typed [] rest))
    exact hshort.eq_of_length (length_lowerWithin [] typed [] rest)
  · intro heq
    rw [heq]
    exact List.prefix_append _ _

end PhpIndex.Text
