import PhpIndex.Name.TypeName

/-!
# Type unions

The alternatives of a type in the order in which they were first seen, one for each name.
-/
namespace PhpIndex

structure TypeUnion where
  types : List TypeName
  deriving DecidableEq

namespace TypeUnion

def empty : TypeUnion := ⟨[]⟩

instance : Inhabited TypeUnion := ⟨empty⟩

def single (t : TypeName) : TypeUnion := ⟨[t]⟩

def names (u : TypeUnion) : List String := u.types.map TypeName.name

def contains (u : TypeUnion) (name : String) : Bool := u.types.any (fun t => t.name == name)

/-- Adds an alternative at the end unless one of its name is there. -/
def push (u : TypeUnion) (t : TypeName) : TypeUnion :=
  if u.contains t.name then u else ⟨u.types ++ [t]⟩

def ofList (ts : List TypeName) : TypeUnion := ts.foldl push empty

def merge (u v : TypeUnion) : TypeUnion := v.types.foldl push u

def size (u : TypeUnion) : Nat := u.types.length

def isEmpty (u : TypeUnion) : Bool := u.types.isEmpty

def first? (u : TypeUnion) : Option TypeName := u.types.head?

/-- Makes every alternative absolute; alternatives that meet in one name become one. -/
def resolve (u : TypeUnion) (imports : Imports) : TypeUnion :=
  ofList (u.types.map (fun t => t.resolve imports))

/-- The union as it is written in a signature. -/
def render (u : TypeUnion) : String := Text.joinWith "|" u.names

theorem contains_iff (u : TypeUnion) (name : String) :
    u.contains name = true ↔ name ∈ u.names := by
  simp [contains, names]

theorem names_push (u : TypeUnion) (t : TypeName) :
    (u.push t).names = if t.name ∈ u.names then u.names else u.names ++ [t.name] := by
  unfold push
  by_cases hc : t.name ∈ u.names
  · rw [if_pos ((u.contains_iff _).2 hc), if_pos hc]
  · rw [if_neg (fun h => hc ((u.contains_iff _).1 h)), if_neg hc]
    simp [names]

end TypeUnion
end PhpIndex
