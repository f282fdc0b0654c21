import PhpIndex.Name.TypeUnion
import PhpIndex.Source.Range

/-!
# Variable scopes

The variables bound in the body of one function, or at the top level of a document, with the
types that they were seen to take. Variables go by their name with the dollar sign.
-/
namespace PhpIndex

structure VariableScope where
  location : Location
  types : OrderedMap String TypeUnion
  deriving DecidableEq

namespace VariableScope

def empty (location : Location) : VariableScope := ⟨location, .empty⟩

instance : Inhabited VariableScope := ⟨empty .empty⟩

/-- The name with a dollar sign in front. -/
def key (name : String) : String := if Text.startsWith "$" name then name else "$" ++ name

def get? (s : VariableScope) (name : String) : Option TypeUnion := s.types.get? (key name)

/-- Adds types to those bound already. Binding no type still records the variable. -/
def bind (s : VariableScope) (name : String) (types : TypeUnion) : VariableScope :=
  let bound := ((s.get? name).getD .empty).merge types
  { s with types := s.types.insert (key name) bound }

def size (s : VariableScope) : Nat := s.types.size

def isEmpty (s : VariableScope) : Bool := s.types.isEmpty

def range? (s : VariableScope) : Option Range := s.location.range?

/-- Binding changes the types of the one variable only. -/
theorem get?_bind (s : VariableScope) (name other : String) (types : TypeUnion) :
    (s.bind name types).get? other =
      if key other = key name then some (((s.get? name).getD .empty).merge types)
      else s.get? other := by
  simp only [get?, bind, OrderedMap.get?_insert]

end VariableScope
end PhpIndex
