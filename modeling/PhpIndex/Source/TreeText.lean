import PhpIndex.Source.SyntaxTree
import PhpIndex.Text.Cut
import PhpIndex.Text.WholeNumber

/-!
# Syntax trees as text

The table form of a tree with a line for each row: depth, kind, start and end with tabs between
them, and behind another tab the part that the node plays in its parent, if it has a name.
-/
namespace PhpIndex

namespace TreeRow

def ofLine? (line : String) : Option TreeRow := do
  let offset := fun s => (parseNatural (UInt32.size - 1) s).toOption
  match Text.splitAll '\t' line with
  | depth :: kind :: start :: stop :: more =>
    let range : Range := ⟨.ofNat (← offset start), .ofNat (← offset stop)⟩
    some ⟨← offset depth, kind, range, more.head?⟩
  | _ => none

end TreeRow

/-- The tree of a table; none if one of its lines is no row. -/
def SyntaxTree.ofText? (text : String) : Option SyntaxTree :=
  (((Text.linesOf text).filter (fun line => !line.isEmpty)).mapM TreeRow.ofLine?).map ofRows

end PhpIndex
