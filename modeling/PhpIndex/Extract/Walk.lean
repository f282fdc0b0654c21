import PhpIndex.Extract.Atom
import PhpIndex.Extract.Construct

/-!
# Reading a syntax tree

One walk over the tree. Entering a node opens its construct; leaving it turns the construct into
items, and each of them is recorded and then offered to the constructs around, innermost first,
until one takes it up.
-/
namespace PhpIndex.Extract

/-- The constructs around a place, innermost first, with a gap for each node that opened none. -/
abbrev Open := List (Option Construct)

/-- Offers an item to the constructs around. A token goes no further than to the node right
around it. -/
def offer (item : Item) (place : Place) : Open → StateM State Open
  | [] => return []
  | none :: outer => do
    if item.isToken then return none :: outer
    else return none :: (← offer item .deeper outer)
  | some construct :: outer => do
    let (construct, taken) ← construct.accept item place
    if taken || item.isToken then return some construct :: outer
    else return some construct :: (← offer item .deeper outer)

/-- Records items and offers them around, one after the other. -/
def hand (items : List Item) (field? : Option String) (around : Open) : StateM State Open :=
  items.foldlM (fun around item => do
    modify fun s => s.record item
    offer item (.child field?) around) around

/-- Statements and attributes may stand between a documentation comment and what it is about. -/
def keepsDoc (kind : String) : Bool := kind = "expression_statement" || kind = "attribute_list"

/-- Gives the last documentation comment to the construct if it takes one. Any other node puts
an end to it. -/
def takeDoc (kind : String) (construct? : Option Construct) : StateM State (Option Construct) := do
  let doc? := (← get).doc?
  match construct?.bind (Construct.withDoc {}), doc? with
  | some _, some doc =>
    modify fun s => { s with doc? := none }
    return construct?.bind (Construct.withDoc doc)
  | some _, none => return construct?
  | none, _ =>
    if !keepsDoc kind then modify fun s => { s with doc? := none }
    return construct?

/-- Notes the documentation comment that a comment may be. -/
def noteComment (kind : String) (range : Range) (s : State) : State :=
  if kind = "comment" ∧ DocComment.isDocComment (s.text range) then
    { s with doc? := some (DocComment.parse (s.text range)) }
  else s

/-- Opens the construct of a node with children. -/
def enter (tree : SyntaxTree) : StateM State (Option Construct) := do
  match Role.ofKind? tree.kind with
  | some role => takeDoc tree.kind (some (← role.start tree))
  | none => takeDoc tree.kind none

/-- Turns the construct of a node into items and hands them around. -/
def leave (construct? : Option Construct) (field? : Option String) (range : Range)
    (around : Open) : StateM State Open := do
  match construct? with
  | none => return around
  | some construct => hand (← construct.finish range) field? around

mutual

def walk (surroundings : Surroundings) (around : Open) : SyntaxTree → StateM State Open
  | .node kind field? range children => do
    modify fun s => noteComment kind range s
    match atom? kind field? range surroundings (← get) with
    | some item =>
      if !children.isEmpty && !keepsDoc kind then modify fun s => { s with doc? := none }
      hand [item] field? around
    | none =>
      if children.isEmpty then
        if kind = "comment" then return around
        else hand [.token ((← get).text range)] field? around
      else
        let construct? ← enter (.node kind field? range children)
        match ← walkAll ⟨some kind, none⟩ (construct? :: around) children with
        | [] => return []
        | construct? :: around => leave construct? field? range around

/-- Walks the children of a node, each with the kind of the one in front of it. -/
def walkAll (surroundings : Surroundings) (around : Open) : List SyntaxTree → StateM State Open
  | [] => return around
  | tree :: rest => do
    let around ← walk surroundings around tree
    walkAll { surroundings with previousKind? := some tree.kind } around rest

end

end PhpIndex.Extract

namespace PhpIndex

/-- What a document declares and refers to, in the order in which it was read. `scopes` are those
of functions, and `globals` is the one of the document itself. -/
structure Extraction where
  imports : Imports
  globals : VariableScope
  scopes : List VariableScope
  symbols : List Symbol
  references : List Reference
  deriving DecidableEq

namespace Extraction

def ofTree (uri source : String) (tree : SyntaxTree) : Extraction :=
  let (_, s) := Extract.walk ⟨none, none⟩ [] tree |>.run (.start uri source)
  ⟨s.imports, s.globals, s.finished, s.symbols, s.references⟩

end Extraction
end PhpIndex
