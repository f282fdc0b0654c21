import PhpIndex.Extract.State

/-!
# Expressions in the source

What is known of the types of expressions, and the statements that bind variables to them.
-/
namespace PhpIndex.Extract

/-- The union of one built-in type. -/
def builtin (name : String) : TypeUnion := .single (.ofSource name)

/-- An assignment to a variable or the declaration of a static one. -/
structure Assignment where
  target? : Option String := none
  value : TypeUnion := .empty
  doc? : Option DocComment := none
  deriving DecidableEq

namespace Assignment

def targetOf (item : Item) : Option String :=
  match item with
  | .name text _ => if Text.startsWith "$" text then some text else none
  | _ => item.variableName?

def accept (a : Assignment) (item : Item) (place : Place) : Assignment × Bool :=
  if place.isField "left" || place.isField "name" then
    ({ a with target? := targetOf item }, item.isFragment)
  else ({ a with value := item.types?.getD a.value }, item.isFragment)

/-- The types that the documentation declares for the variable: a tag that names another one
says nothing about it. -/
def documented (a : Assignment) (target : String) : TypeUnion :=
  match a.doc?.bind DocComment.var? with
  | some tag => if tag.name?.all (· == target) then tag.types else .empty
  | none => .empty

def finish (a : Assignment) (range : Range) : StateM State (List Item) := do
  let s ← get
  let types := s.resolveTypes a.value
  match a.target? with
  | none => return [.value types range]
  | some target =>
    let types := types.merge (s.resolveTypes (a.documented target))
    set (s.bind target types)
    return [.value types range]

end Assignment

/-- The types of the last expression read. -/
structure LastValue where
  types : TypeUnion := .empty
  deriving DecidableEq

namespace LastValue

def accept (v : LastValue) (item : Item) : LastValue × Bool :=
  (⟨item.types?.getD v.types⟩, item.isFragment)

end LastValue

/-- Two operands and the operator between them. -/
structure Binary where
  operator? : Option String := none
  left : TypeUnion := .empty
  right : TypeUnion := .empty
  deriving DecidableEq

namespace Binary

/-- Without a name for its part an operand is the right one if it stands behind the operator. -/
def isRight (b : Binary) (place : Place) : Bool :=
  place.isField "right" || (!place.isField "left" && b.operator?.isSome)

def accept (b : Binary) (item : Item) (place : Place) : Binary × Bool :=
  match item with
  | .token text =>
    if b.operator?.isNone || place.isField "operator" then
      ({ b with operator? := some (Text.lowerAscii text) }, true)
    else (b, false)
  | _ =>
    match item.types? with
    | some types =>
      if b.isRight place then ({ b with right := types }, item.isFragment)
      else ({ b with left := types }, item.isFragment)
    | none => (b, item.isFragment)

/-- The type of a sum or product: a float if an operand is one, an integer if both are. -/
def numeric (left right : TypeUnion) : TypeUnion :=
  if left.contains "float" || right.contains "float" then builtin "float"
  else if left.contains "int" && right.contains "int" then builtin "int"
  else (builtin "int").push (.ofSource "float")

def comparisons : List String :=
  ["==", "!=", "<>", "===", "!==", "<", ">", "<=", ">=", "&&", "||", "and", "or", "xor",
   "instanceof"]

def integerOperators : List String := ["<=>", "%", "&", "|", "^", "<<", ">>"]

def arithmetic : List String := ["+", "-", "*", "/", "**"]

def types (b : Binary) : TypeUnion :=
  match b.operator? with
  | none => .empty
  | some operator =>
    if operator = "." then builtin "string"
    else if operator ∈ comparisons then builtin "bool"
    else if operator = "??" then b.left.merge b.right
    else if operator ∈ integerOperators then builtin "int"
    else if operator ∈ arithmetic then numeric b.left b.right
    else .empty

end Binary

structure Unary where
  operator? : Option String := none
  operand : TypeUnion := .empty
  deriving DecidableEq

namespace Unary

def accept (u : Unary) (item : Item) : Unary × Bool :=
  match item with
  | .token text => ({ u with operator? := some text }, true)
  | _ => ({ u with operand := item.types?.getD u.operand }, item.isFragment)

def types (u : Unary) : TypeUnion :=
  if u.operator? = some "!" then builtin "bool"
  else if u.operator? = some "~" then builtin "int"
  else u.operand

end Unary

/-- A cast has the type in its parentheses. -/
structure Cast where
  types : TypeUnion := .empty
  deriving DecidableEq

namespace Cast

def accept (c : Cast) (item : Item) (place : Place) : Cast × Bool :=
  match item with
  | .type types _ => if place.isChild && c.types.isEmpty then (⟨types⟩, true) else (c, true)
  | _ => (c, item.isFragment)

end Cast

/-- A choice between two expressions. Without the middle one the condition takes its place. -/
structure Conditional where
  condition : TypeUnion := .empty
  body? : Option TypeUnion := none
  alternative : TypeUnion := .empty
  deriving DecidableEq

namespace Conditional

def place (c : Conditional) (field? : Option String) (types : TypeUnion) : Conditional :=
  match field? with
  | some "condition" => { c with condition := types }
  | some "body" => { c with body? := some types }
  | some "alternative" => { c with alternative := types }
  | _ => c

def accept (c : Conditional) (item : Item) (place : Place) : Conditional × Bool :=
  match item.types? with
  | some types => (c.place place.field? types, item.isFragment)
  | none => (c, item.isFragment)

def types (c : Conditional) : TypeUnion := (c.body?.getD c.condition).merge c.alternative

end Conditional

inductive LoopPart where
  | subject
  | bindings
  | body
  deriving DecidableEq

/-- A loop over the elements of a value. The variables between `as` and the end of its head are
bound, to no type. -/
structure ElementLoop where
  part : LoopPart := .subject
  deriving DecidableEq

namespace ElementLoop

def acceptToken (l : ElementLoop) (text : String) : ElementLoop × Bool :=
  if Text.lowerAscii text = "as" ∧ l.part = .subject then (⟨.bindings⟩, true)
  else if (text = ")" ∨ text = ":") ∧ l.part = .bindings then (⟨.body⟩, true)
  else (l, false)

def accept (l : ElementLoop) (item : Item) : StateM State (ElementLoop × Bool) := do
  match item with
  | .token text => return l.acceptToken text
  | _ =>
    if l.part = .bindings then
      match item.variableName? with
      | some name => modify fun s => s.bind name .empty
      | none => pure ()
    return (l, item.isFragment)

end ElementLoop

/-- The types that a `catch` clause names in front of its variable. -/
structure CatchClause where
  types : TypeUnion := .empty
  deriving DecidableEq

namespace CatchClause

def accept (c : CatchClause) (item : Item) (place : Place) :
    StateM State (CatchClause × Bool) := do
  match item with
  | .type types _ =>
    if place.isChild then return (⟨c.types.merge types⟩, true) else return (c, true)
  | _ =>
    match item.variableName? with
    | some name =>
      if place.isChild then modify fun s => s.bind name c.types
      return (c, true)
    | none => return (c, item.isFragment)

end CatchClause

/-- A `global` statement binds its variables to what they are at the top level. -/
def acceptGlobal (item : Item) : StateM State Bool := do
  match item.variableName? with
  | none => return false
  | some name =>
    modify fun s => s.bind name ((s.globals.get? name).getD .empty)
    return true

end PhpIndex.Extract
