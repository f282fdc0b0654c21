import Mathlib.Data.List.DropRight
import PhpIndex.Proofs.Name.BareWord

/-!
# Canonical spellings

A name is canonical if it is that of no built-in type, or in the one spelling under which a record
knows the type. What is read from source or known to be absolute is made canonical, and so is what
is resolved in a namespace, as a name with a separator is never that of a built-in type. Only where
a single word is imported, or put right below the global namespace, does a name stand as it is
spelled.
Main statement: `canonical_absoluteName`.
-/
namespace PhpIndex

/-- Whether the name is in the canonical spelling if it is that of a built-in type. -/
def Canonical (name : String) : Prop := canonicalBuiltin? name = none ∨ name ∈ builtinTypes

instance : DecidablePred Canonical := fun _ => inferInstanceAs (Decidable (_ ∨ _))

/-- Whether what the name says to lie below the current namespace is canonical on its own. -/
def LocallyCanonical (name : String) : Prop :=
  ∀ rest ∈ Text.afterLead? "namespace\\" name, Canonical (Imports.trimLead rest)

instance : DecidablePred LocallyCanonical := fun _ =>
  inferInstanceAs (Decidable (∀ rest ∈ Text.afterLead? _ _, Canonical (Imports.trimLead rest)))

/-- No built-in type is spelled with a separator. -/
theorem canonical_of_separator {name : String} (h : '\\' ∈ name.toList) : Canonical name := by
  have hspellings : ∀ word ∈ TypeName.builtinSpellings, '\\' ∉ word.toList := by decide
  refine .inl (Option.eq_none_iff_forall_ne_some.2 fun builtin hbuiltin => ?_)
  refine hspellings _ (TypeName.lowerAscii_mem_of_canonicalBuiltin? hbuiltin) ?_
  rw [Text.lowerAscii, String.toList_ofList]
  exact List.mem_map.2 ⟨'\\', h, rfl⟩

theorem canonical_append (front rest : String) : Canonical (front ++ "\\" ++ rest) := by
  have hmark : '\\' ∈ "\\".toList := by decide
  refine canonical_of_separator ?_
  rw [String.toList_append, String.toList_append]
  exact List.mem_append_left _ (List.mem_append_right _ hmark)

theorem canonical_getD (name : String) : Canonical ((canonicalBuiltin? name).getD name) := by
  cases hname : canonicalBuiltin? name with
  | none => exact .inl hname
  | some builtin => exact .inr (TypeName.mem_of_canonicalBuiltin? hname)

namespace TypeName

theorem canonical_ofAbsolute (name : String) : Canonical (ofAbsolute name).name := by
  simp only [ofAbsolute]
  exact canonical_getD _

/-- A name that is not known to be absolute is spelled as in the source, without a separator in
front, and is that of no built-in type. -/
theorem ofSource_cases (raw : String) :
    (ofSource raw).absolute = true ∧ Canonical (ofSource raw).name ∨
      ofSource raw = ⟨Text.trimBlank raw, false⟩ ∧ canonicalBuiltin? (Text.trimBlank raw) = none ∧
        Text.startsWith "\\" (Text.trimBlank raw) = false := by
  unfold ofSource
  simp only
  split
  · exact .inl ⟨rfl, canonical_ofAbsolute _⟩
  next hlead =>
    split
    next builtin hbuiltin => exact .inl ⟨rfl, .inr (mem_of_canonicalBuiltin? hbuiltin)⟩
    next hnone => exact .inr ⟨rfl, hnone, Text.afterLead?_eq_none.1 hlead⟩

theorem canonical_ofSource (raw : String) : Canonical (ofSource raw).name := by
  rcases ofSource_cases raw with ⟨-, h⟩ | ⟨heq, hnone, -⟩
  · exact h
  · rw [heq]
    exact .inl hnone

end TypeName

/-! ## Names in a namespace -/

namespace Imports

theorem trimLead_trimLead (name : String) : trimLead (trimLead name) = trimLead name := by
  have htwice := List.dropWhile_idempotent (· == '\\') name.toList
  simp only [trimLead, Text.trimStart, String.toList_ofList, htwice]

end Imports

/-- A name in front of which there is more is canonical unless that is separators only. -/
theorem canonical_trimLead_append {rest : String} (h : Canonical (Imports.trimLead rest))
    (front : String) : Canonical (Imports.trimLead (front ++ "\\" ++ rest)) := by
  have hchars : (front ++ "\\" ++ rest).toList = front.toList ++ '\\' :: rest.toList := by
    rw [String.toList_append, String.toList_append, List.append_assoc]
    rfl
  rw [Imports.trimLead, Text.trimStart, hchars, List.dropWhile_append]
  split
  · rw [List.dropWhile_cons_of_pos (by simp)]
    exact h
  · refine canonical_of_separator ?_
    rw [String.toList_ofList]
    exact List.mem_append_right _ List.mem_cons_self

theorem Canonical.namespaced {name : String} (h : Canonical (Imports.trimLead name))
    (imports : Imports) : Canonical (imports.namespaced name) := by
  unfold Imports.namespaced
  simp only
  split
  · exact h
  · exact canonical_append _ _

/-- What a name stands for is canonical if the imports are, and the name is where the namespace
is put in front of it. -/
theorem canonical_absoluteName {imports : Imports}
    (himports : ∀ known target, imports.classes.get? known = some target → Canonical target)
    {name : String} (hnone : canonicalBuiltin? name = none)
    (hlead : Text.startsWith "\\" name = false) (hlocal : LocallyCanonical name) :
    Canonical (imports.absoluteName name .class) := by
  have hname : Canonical (imports.namespaced name) := by
    refine Canonical.namespaced ?_ imports
    rw [Imports.trimLead_of_not_startsWith hlead]
    exact .inl hnone
  unfold Imports.absoluteName
  split
  next habsolute =>
    rw [Text.afterLead?_eq_none.2 hlead] at habsolute
    cases habsolute
  next relative _ hrelative => exact (hlocal relative hrelative).namespaced imports
  · split
    · split
      · exact canonical_append _ _
      · exact hname
    · split
      next target htarget => exact himports name target htarget
      · exact hname

end PhpIndex
