import Mathlib.Data.List.TakeWhile
import PhpIndex.Proofs.Name.Normal

/-!
# Last segments of names

The words for the class around are told by the last segment of a name, whatever the namespace in
front of it, the letter case and the blanks are. A name keeps its last segment where it is trimmed,
made absolute or put into a namespace, so no name becomes such a word on the way unless an import
says so.
Main statement: `Plain.absoluteName`.
-/
namespace PhpIndex

namespace Text

theorem takeWhile_append_cons {p : α → Bool} {a : α} (h : p a = false) (xs ys : List α) :
    (xs ++ a :: ys).takeWhile p = xs.takeWhile p := by
  induction xs with
  | nil => simp [h]
  | cons x rest ih => simp only [List.cons_append, List.takeWhile_cons, ih]

/-- What stands in front of a separator is not part of the last segment. -/
theorem afterLast_append (c : Char) (a b : List Char) :
    afterLast c (String.ofList (a ++ c :: b)) = afterLast c (String.ofList b) := by
  simp only [afterLast, String.toList_ofList, List.reverse_append, List.reverse_cons,
    List.append_assoc, List.singleton_append]
  rw [takeWhile_append_cons (by simp)]

theorem afterLast_of_not_mem {c : Char} {s : String} (h : c ∉ s.toList) : afterLast c s = s := by
  have hall : ∀ d ∈ s.toList.reverse, (d != c) = true := by
    intro d hd
    rw [List.mem_reverse] at hd
    exact bne_iff_ne.2 fun heq => h (heq ▸ hd)
  rw [afterLast, List.takeWhile_eq_self_iff.2 hall, List.reverse_reverse, String.ofList_toList]

theorem eq_append_of_afterLead? {lead s rest : String} (h : afterLead? lead s = some rest) :
    s.toList = lead.toList ++ rest.toList := by
  rw [afterLead?, Option.ite_none_right_eq_some, List.isPrefixOf_iff_prefix] at h
  obtain ⟨⟨more, hmore⟩, hrest⟩ := h
  rw [← Option.some.inj hrest, String.toList_ofList, ← hmore, ← String.length_toList,
    List.drop_left]

/-- The last segment of a name in lower case, without blanks. -/
def bareWord (name : String) : String :=
  lowerAscii (afterLast '\\' (String.ofList (name.toList.filter fun c => !isBlank c)))

theorem bareWord_of_filter {a b : String}
    (h : a.toList.filter (fun c => !isBlank c) = b.toList.filter fun c => !isBlank c) :
    bareWord a = bareWord b := by
  rw [bareWord, h, bareWord]

theorem bareWord_trimBlank (name : String) : bareWord (trimBlank name) = bareWord name := by
  have hdrop (l : List Char) : (l.dropWhile isBlank).filter (fun c => !isBlank c) =
      l.filter fun c => !isBlank c := by
    induction l with
    | nil => rfl
    | cons c rest ih =>
      cases hc : isBlank c with
      | false => rw [List.dropWhile_cons_of_neg (by simp [hc])]
      | true => rw [List.dropWhile_cons_of_pos hc, ih, List.filter_cons_of_neg (by simp [hc])]
  refine bareWord_of_filter ?_
  simp only [trimBlank, trimBoth, trimEnd, trimStart, String.toList_ofList, List.filter_reverse,
    hdrop, List.reverse_reverse]

theorem bareWord_append (a b : List Char) :
    bareWord (String.ofList (a ++ '\\' :: b)) = bareWord (String.ofList b) := by
  have hmark : isBlank '\\' = false := by decide
  simp only [bareWord, String.toList_ofList, List.filter_append, List.filter_cons, hmark,
    Bool.not_false, if_true, afterLast_append]

theorem bareWord_trimLead (name : String) : bareWord (Imports.trimLead name) = bareWord name := by
  have hdrop (l : List Char) : bareWord (String.ofList (l.dropWhile (· == '\\'))) =
      bareWord (String.ofList l) := by
    induction l with
    | nil => rfl
    | cons c rest ih =>
      by_cases hc : c = '\\'
      · subst hc
        rw [List.dropWhile_cons_of_pos (by simp), ih]
        exact (bareWord_append [] rest).symm
      · rw [List.dropWhile_cons_of_neg (by simpa using hc)]
  rw [Imports.trimLead, trimStart, hdrop, String.ofList_toList]

theorem toLower_of_isBlank {c : Char} (h : isBlank c = true) : c.toLower = c := by
  have hupper : ∀ n < 26, isBlank (Char.ofNat (65 + n)) = false := by decide
  unfold Char.toLower
  split
  next hrange =>
    have hlow : 65 ≤ c.toNat := hrange.1
    have hhigh : c.toNat ≤ 90 := hrange.2
    have hc := hupper (c.toNat - 65) (by omega)
    rw [Nat.add_sub_cancel' hlow, Char.ofNat_toNat, h] at hc
    cases hc
  · rfl

/-- A name that is a plain word in any letter case is that word. -/
theorem bareWord_of_lowerAscii {name word : String} (h : lowerAscii name = word)
    (hword : word.toList.all (fun c => !isBlank c && c != '\\') = true) :
    bareWord name = word := by
  simp only [List.all_eq_true, Bool.and_eq_true, Bool.not_eq_true', bne_iff_ne] at hword
  have hmem : ∀ c ∈ name.toList, c.toLower ∈ word.toList := by
    intro c hc
    rw [← h, lowerAscii, String.toList_ofList]
    exact List.mem_map_of_mem hc
  have hfilter : name.toList.filter (fun c => !isBlank c) = name.toList := by
    refine List.filter_eq_self.2 fun c hc => ?_
    cases hblank : isBlank c with
    | false => rfl
    | true =>
      have hlower := (hword _ (hmem c hc)).1
      rw [toLower_of_isBlank hblank, hblank] at hlower
      cases hlower
  have hlast : '\\' ∉ name.toList := fun hc => (hword _ (hmem _ hc)).2 rfl
  rw [bareWord, hfilter, String.ofList_toList, afterLast_of_not_mem hlast, h]

end Text

/-- The words that stand for the class around. -/
def selfWords : List String := ["self", "static"]

theorem TypeName.lowerAscii_of_canonicalBuiltin? {name builtin : String}
    (h : canonicalBuiltin? name = some builtin) (hword : builtin ∈ selfWords) :
    Text.lowerAscii name = builtin := by
  simp only [canonicalBuiltin?, Option.ite_none_right_eq_some] at h
  have hcanonical := Option.some.inj h.2
  split at hcanonical
  · subst hcanonical
    contradiction
  · split at hcanonical
    · subst hcanonical
      contradiction
    · split at hcanonical
      · subst hcanonical
        contradiction
      · exact hcanonical

/-- Whether the last segment of the name is none of the words for the class around. -/
def Plain (name : String) : Prop := Text.bareWord name ∉ selfWords

instance : DecidablePred Plain := fun _ => inferInstanceAs (Decidable (_ ∉ _))

namespace Plain
variable {name : String}

theorem not_mem (h : Plain name) : name ∉ selfWords := by
  have hwords : ∀ word ∈ selfWords, Text.bareWord word = word := by decide +kernel
  intro hmem
  rw [Plain, hwords name hmem] at h
  exact h hmem

theorem trimBlank (h : Plain name) : Plain (Text.trimBlank name) := by
  rwa [Plain, Text.bareWord_trimBlank]

theorem trimLead (h : Plain name) : Plain (Imports.trimLead name) := by
  rwa [Plain, Text.bareWord_trimLead]

theorem iff_of_toList {name rest : String} (front : List Char)
    (h : name.toList = front ++ '\\' :: rest.toList) : Plain name ↔ Plain rest := by
  rw [Plain, Plain, ← String.ofList_toList (s := name), h, Text.bareWord_append,
    String.ofList_toList]

theorem append (h : Plain name) (front : String) : Plain (front ++ "\\" ++ name) := by
  refine (iff_of_toList front.toList ?_).2 h
  rw [String.toList_append, String.toList_append, List.append_assoc]
  rfl

/-- What is left of a name behind a separator is as plain as the name. -/
theorem of_afterLead? {lead rest : String} (h : Plain name) (front : List Char)
    (hlead : lead.toList = front ++ ['\\']) (hrest : Text.afterLead? lead name = some rest) :
    Plain rest := by
  refine (iff_of_toList front ?_).1 h
  rw [Text.eq_append_of_afterLead? hrest, hlead, List.append_assoc]
  rfl

/-- The canonical spelling of a built-in type is a word for the class around only if the name is. -/
theorem canonical (h : Plain name) : Plain ((canonicalBuiltin? name).getD name) := by
  cases hname : canonicalBuiltin? name with
  | none => exact h
  | some builtin =>
    have hall : ∀ b ∈ builtinTypes, b ∈ selfWords ∨ Plain b := by decide +kernel
    refine (hall builtin (TypeName.mem_of_canonicalBuiltin? hname)).resolve_left fun hword => ?_
    have hlower := TypeName.lowerAscii_of_canonicalBuiltin? hname hword
    have hletters : ∀ word ∈ selfWords,
        word.toList.all (fun c => !Text.isBlank c && c != '\\') = true := by decide
    rw [Plain, Text.bareWord_of_lowerAscii hlower (hletters builtin hword)] at h
    exact h hword

theorem ofAbsolute (h : Plain name) : Plain (TypeName.ofAbsolute name).name := by
  simp only [TypeName.ofAbsolute]
  exact h.trimLead.canonical

theorem ofSource (h : Plain name) : Plain (TypeName.ofSource name).name := by
  have htrim := h.trimBlank
  unfold TypeName.ofSource
  simp only
  split
  next rest hrest => exact (htrim.of_afterLead? [] rfl hrest).ofAbsolute
  · have hcanonical := htrim.canonical
    split
    next builtin hbuiltin => rwa [hbuiltin] at hcanonical
    · exact htrim

theorem namespaced (h : Plain name) (imports : Imports) : Plain (imports.namespaced name) := by
  unfold Imports.namespaced
  simp only
  split
  · exact h.trimLead
  · exact h.trimLead.append imports.namespaceName

theorem absoluteName (h : Plain name) {imports : Imports}
    (himports : ∀ known target, imports.classes.get? known = some target → Plain target) :
    Plain (imports.absoluteName name .class) := by
  unfold Imports.absoluteName
  split
  next absolute _ habsolute => exact h.of_afterLead? [] rfl habsolute
  next relative _ hrelative =>
    exact (h.of_afterLead? "namespace".toList rfl hrelative).namespaced imports
  · split
    next first rest hsplit =>
      obtain ⟨⟨a, b⟩, hchars, hpair⟩ := Option.map_eq_some_iff.1 hsplit
      have hname := (Chars.splitFirst_eq_some hchars).1
      have hrest : Plain rest := by
        rw [← (Prod.mk.inj hpair).2]
        exact (iff_of_toList a (by rw [String.toList_ofList, hname])).1 h
      split
      next target _ => exact hrest.append target
      · exact h.namespaced imports
    · split
      next target htarget => exact himports name target htarget
      · exact h.namespaced imports

end Plain
end PhpIndex
