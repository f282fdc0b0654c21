import PhpIndex.Extract.State

/-!
# Namespaces and imports in the source

The statements that change how names are resolved behind them.
-/
namespace PhpIndex.Extract

/-- A `namespace` statement. Imports end where a namespace begins, and the name is in force as
soon as it was read. -/
structure NamespaceStatement where
  braced : Bool
  deriving DecidableEq

namespace NamespaceStatement

def start (braced : Bool) : StateM State NamespaceStatement := do
  modify fun s => { s with imports := .empty }
  return ⟨braced⟩

def accept (n : NamespaceStatement) (item : Item) (place : Place) :
    StateM State (NamespaceStatement × Bool) :=
  match item with
  | .name text _ =>
    if place.isChild then do
      modify fun s => { s with imports := s.imports.setNamespace text }
      return (n, true)
    else return (n, false)
  | _ => return (n, false)

/-- Behind the closing brace the global namespace is in force again. -/
def finish (n : NamespaceStatement) : StateM State (List Item) := do
  if n.braced then modify fun s => { s with imports := .empty }
  return []

end NamespaceStatement

/-- The keyword that makes an import one of functions or constants. -/
def importKeyword? (word : String) : Option ImportKind :=
  match Text.lowerAscii word with
  | "function" => some .function
  | "const" => some .constant
  | _ => none

/-- One name in a `use` statement, with its alias. -/
structure UseName where
  name? : Option (String × Range) := none
  alias? : Option String := none
  kind? : Option ImportKind := none
  afterAs : Bool := false
  deriving DecidableEq

namespace UseName

def accept (u : UseName) (item : Item) (place : Place) : UseName × Bool :=
  match item with
  | .token text =>
    if Text.lowerAscii text = "as" then ({ u with afterAs := true }, true)
    else
      match importKeyword? text with
      | some kind => ({ u with kind? := some kind }, true)
      | none => (u, false)
  | .name text range =>
    if place.isField "alias" || u.afterAs then ({ u with alias? := some text }, true)
    else if u.name?.isNone then ({ u with name? := some (text, range) }, true)
    else (u, false)
  | .alias text => ({ u with alias? := some text }, true)
  | _ => (u, false)

def finish (u : UseName) (range : Range) : List Item :=
  match u.name? with
  | some (name, nameRange) =>
    [.useClause ⟨name, if nameRange.isEmpty then range else nameRange, u.alias?, u.kind?⟩]
  | none => []

end UseName

/-- A `use` statement for imports. `lead?` is the part that the names of a group share. -/
structure UseStatement where
  kind? : Option ImportKind := none
  lead? : Option String := none
  clauses : List UseClause := []
  deriving DecidableEq

namespace UseStatement

def accept (u : UseStatement) (item : Item) : UseStatement × Bool :=
  match item with
  | .token text =>
    match importKeyword? text with
    | some kind => ({ u with kind? := some kind }, true)
    | none => (u, false)
  | .name text _ => ({ u with lead? := some text }, true)
  | .useClause clause => ({ u with clauses := u.clauses ++ [clause] }, true)
  | _ => (u, false)

/-- The absolute name that a clause imports. -/
def target (u : UseStatement) (clause : UseClause) : String :=
  let name := Imports.trimLead clause.name
  match u.lead? with
  | some lead => Text.trimBoth (· == '\\') lead ++ "\\" ++ name
  | none => name

def referenceKind : ImportKind → ReferenceKind
  | .class => .className
  | .function => .function
  | .constant => .constantAccess

def register (u : UseStatement) (clause : UseClause) : StateM State Item := do
  let kind := (clause.kind?.or u.kind?).getD .class
  let target := u.target clause
  modify fun s => { s with imports := s.imports.addImport kind target clause.alias? }
  return .reference
    { kind := referenceKind kind
      types := .single (.ofAbsolute target)
      location := (← get).locate clause.range }
    .empty

def finish (u : UseStatement) : StateM State (List Item) := u.clauses.mapM u.register

end UseStatement
end PhpIndex.Extract
