import PhpIndex.Index.Words
import PhpIndex.Proofs.Text.Lowering

/-!
# Words without zero characters

The words of a name are made of its characters, so a name without zero characters has none in any
of its words.
Main statement: `Words.nulFree_of_mem_indexed`.
-/
namespace PhpIndex

namespace Words

theorem subset_of_mem_afterUnderscores {name w : List Char} (h : w ∈ afterUnderscores name) :
    w ⊆ name := by
  induction name using afterUnderscores.induct with
  | case1 a b rest hab ih =>
    rw [afterUnderscores, if_pos hab] at h
    rcases List.mem_cons.1 h with rfl | h
    · exact List.subset_cons_self a _
    · exact List.Subset.trans (ih h) (List.subset_cons_self a _)
  | case2 a b rest hab ih =>
    rw [afterUnderscores, if_neg hab] at h
    exact List.Subset.trans (ih h) (List.subset_cons_self a _)
  | case3 name hname =>
    rw [afterUnderscores] at h
    · exact absurd h List.not_mem_nil
    · exact hname

theorem subset_of_mem_fromCapitals {name w : List Char} (h : w ∈ fromCapitals name) :
    w ⊆ name := by
  induction name using fromCapitals.induct with
  | case1 a b rest hab ih =>
    rw [fromCapitals, if_pos hab] at h
    rcases List.mem_cons.1 h with rfl | h
    · exact List.subset_cons_self a _
    · exact List.Subset.trans (ih h) (List.subset_cons_self a _)
  | case2 a b rest hab ih =>
    rw [fromCapitals, if_neg hab] at h
    exact List.Subset.trans (ih h) (List.subset_cons_self a _)
  | case3 name hname =>
    rw [fromCapitals] at h
    · exact absurd h List.not_mem_nil
    · exact hname

theorem subset_of_mem_ofChars {name w : List Char} (h : w ∈ ofChars name) : w ⊆ name := by
  simp only [ofChars, List.mem_eraseDups, List.mem_filter, List.cons_append, List.mem_cons,
    List.mem_append, List.mem_flatMap] at h
  rcases h.1 with rfl | h | ⟨piece, hpiece, h⟩
  · exact List.Subset.refl _
  · exact subset_of_mem_afterUnderscores h
  · exact List.Subset.trans (subset_of_mem_fromCapitals h) (Chars.subset_of_mem_splitAll hpiece)

theorem mem_indexed {name word : String} :
    word ∈ indexed name ↔ ∃ w ∈ ofName name, Text.lower w = word := by
  simp [indexed]

theorem nulFree_of_mem_indexed {name word : String} (hname : NulFree name)
    (h : word ∈ indexed name) : NulFree word := by
  obtain ⟨w, hw, rfl⟩ := mem_indexed.1 h
  obtain ⟨cs, hcs, rfl⟩ := List.mem_map.1 hw
  refine Text.nulFree_lower fun hzero => hname (subset_of_mem_ofChars hcs ?_)
  rwa [String.toList_ofList] at hzero

end Words
end PhpIndex
