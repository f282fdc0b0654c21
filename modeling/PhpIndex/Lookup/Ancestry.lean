import PhpIndex.Index.Basic

/-!
# Ancestry

A class and everything that it takes members from, nearest first: breadth first through used
traits, parents and interfaces of all declarations of a name, each name once.
-/
namespace PhpIndex.SymbolSource

/-- The supertypes in all declarations of a class. -/
def supertypes (source : SymbolSource) (name : String) : Except StoreError (List String) := do
  let declarations ← source.find .classes name
  pure ((declarations.filterMap Symbol.classDecl?).flatMap ClassDecl.supertypes)

/-- Walks the queue, given the names visited, latest first. `budget` bounds how many more names
with supertypes can be met. -/
def walkUp (source : SymbolSource) (budget : Nat) (visited queue : List String) :
    Except StoreError (List String) :=
  match queue with
  | [] => .ok visited.reverse
  | name :: queue =>
    if name ∈ visited then walkUp source budget visited queue
    else
      match source.supertypes name with
      | .error e => .error e
      | .ok [] => walkUp source budget (name :: visited) queue
      | .ok (first :: more) =>
        match budget with
        | 0 => .ok (name :: visited).reverse
        | budget + 1 => walkUp source budget (name :: visited) (queue ++ first :: more)
termination_by (budget, queue.length)

/-- The class and its ancestors. -/
def ancestry (source : SymbolSource) (name : String) : Except StoreError (List String) :=
  source.walkUp source.classBound [] [name]

end PhpIndex.SymbolSource
