import PhpIndex.Proofs.Name.Canonical
import PhpIndex.Proofs.Name.ShortName

/-!
# Names that keep their last segment

A name that is made absolute ends as it is written, as the namespace or the meaning of the first
segment goes in front of the last one. Only an alias stands for the whole of another name, and only
the spelling of a built-in type is given up for another one.
Main statements: `Imports.afterLast_absoluteName`, `TypeName.shortName_resolve`.
-/
namespace PhpIndex

theorem Text.afterLast_append_separator (a b : String) :
    afterLast '\\' (a ++ "\\" ++ b) = afterLast '\\' b := by
  rw [← String.ofList_toList (s := a ++ "\\" ++ b), toList_append_separator, afterLast_append,
    String.ofList_toList]

theorem Text.not_mem_of_splitFirst {s : String} (h : splitFirst '\\' s = none) :
    '\\' ∉ s.toList := by
  intro hmem
  obtain ⟨front, back, happend, hfront⟩ := List.eq_append_cons_of_mem hmem
  rw [splitFirst, happend, Chars.splitFirst_append hfront] at h
  cases h

namespace Imports

theorem afterLast_trimLead (name : String) :
    Text.afterLast '\\' (trimLead name) = Text.afterLast '\\' name := by
  have hchars (chars : List Char) :
      Text.afterLast '\\' (String.ofList (chars.dropWhile (· == '\\'))) =
        Text.afterLast '\\' (String.ofList chars) := by
    induction chars with
    | nil => rfl
    | cons c rest ih =>
      by_cases hc : c = '\\'
      · rw [List.dropWhile_cons_of_pos (by simp [hc]), ih, hc]
        exact (Text.afterLast_append '\\' [] rest).symm
      · rw [List.dropWhile_cons_of_neg (by simp [hc])]
  rw [trimLead, Text.trimStart, hchars, String.ofList_toList]

theorem afterLast_namespaced (t : Imports) (name : String) :
    Text.afterLast '\\' (t.namespaced name) = Text.afterLast '\\' name := by
  unfold namespaced
  simp only
  split
  · exact afterLast_trimLead name
  · rw [Text.afterLast_append_separator, afterLast_trimLead]

/-- Whether a name that is one segment has no other meaning than one that ends in it. -/
def Keeps (t : Imports) (kind : ImportKind) (name : String) : Prop :=
  '\\' ∉ name.toList → ∀ target, (t.aliases kind).get? name = some target →
    Text.afterLast '\\' target = name

theorem afterLast_absoluteName {t : Imports} {kind : ImportKind} {name : String}
    (h : t.Keeps kind name) :
    Text.afterLast '\\' (t.absoluteName name kind) = Text.afterLast '\\' name := by
  unfold absoluteName
  split
  next absolute hlead =>
    rw [Text.afterLead?_eq_some.1 hlead]
    exact (Text.afterLast_append_separator "" absolute).symm
  next relative _ hlead =>
    rw [afterLast_namespaced, Text.afterLead?_eq_some.1 hlead]
    exact (Text.afterLast_append_separator "namespace" relative).symm
  · split
    next first rest hsplit =>
      split
      · rw [Text.afterLast_append_separator, Text.eq_of_splitFirst hsplit,
          Text.afterLast_append_separator]
      · exact t.afterLast_namespaced name
    next hsplit =>
      split
      next target hget =>
        have hword : '\\' ∉ name.toList := Text.not_mem_of_splitFirst hsplit
        rw [h hword target hget, Text.afterLast_of_not_mem hword]
      · exact t.afterLast_namespaced name

end Imports

namespace TypeName

theorem canonicalBuiltin?_of_separator {name : String} (h : '\\' ∈ name.toList) :
    canonicalBuiltin? name = none := by
  have hnone : ∀ word ∈ builtinTypes, '\\' ∉ word.toList := by decide
  exact (canonical_of_separator h).resolve_right fun hmem => hnone name hmem h

/-- Only a name of one segment is that of a built-in type. -/
theorem canonicalBuiltin?_of_afterLast {name : String}
    (h : canonicalBuiltin? (Text.afterLast '\\' name) = none) : canonicalBuiltin? name = none := by
  by_cases hseparator : '\\' ∈ name.toList
  · exact canonicalBuiltin?_of_separator hseparator
  · rwa [Text.afterLast_of_not_mem hseparator] at h

theorem shortName_ofAbsolute {name : String}
    (h : canonicalBuiltin? (Text.afterLast '\\' name) = none) :
    (ofAbsolute name).shortName = Text.afterLast '\\' name := by
  rw [← Imports.afterLast_trimLead] at h
  simp only [ofAbsolute, shortName, canonicalBuiltin?_of_afterLast h, Option.getD_none]
  exact Imports.afterLast_trimLead name

theorem shortName_ofSource {raw : String} (hblank : Text.trimBlank raw = raw)
    (h : canonicalBuiltin? (Text.afterLast '\\' raw) = none) :
    (ofSource raw).shortName = Text.afterLast '\\' raw := by
  unfold ofSource
  simp only [hblank]
  split
  next rest hlead =>
    have hrest : Text.afterLast '\\' raw = Text.afterLast '\\' rest := by
      rw [Text.afterLead?_eq_some.1 hlead]
      exact Text.afterLast_append_separator "" rest
    rw [hrest] at h ⊢
    exact shortName_ofAbsolute h
  · rw [canonicalBuiltin?_of_afterLast h]
    rfl

theorem shortName_resolve {raw : String} (hblank : Text.trimBlank raw = raw)
    (h : canonicalBuiltin? (Text.afterLast '\\' raw) = none) {imports : Imports}
    (himports : imports.Keeps .class raw) :
    ((ofSource raw).resolve imports).shortName = Text.afterLast '\\' raw := by
  unfold resolve resolveAs
  split
  · exact shortName_ofSource hblank h
  next hrelative =>
    rcases ofSource_cases raw with ⟨habsolute, -⟩ | ⟨hraw, -⟩
    · simp [habsolute] at hrelative
    · rw [hraw, hblank]
      exact Imports.afterLast_absoluteName himports

end TypeName
end PhpIndex
