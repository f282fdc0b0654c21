import PhpIndex.Extract.DocComment
import PhpIndex.Extract.Item

/-!
# The state of a reading

What is known while a syntax tree is read: imports, the scopes and classes that are open, and
the declarations and references found so far. Names are resolved in it as the language resolves
them at that place.
-/
namespace PhpIndex.Extract

/-- A class whose body is being read. It has no name before its name was read, and never one if
it is anonymous. -/
structure ClassContext where
  name : String := ""
  parent? : Option String := none
  anonymous : Bool
  deriving DecidableEq

/-- `scopes` and `classes` have the innermost first; `finished` holds the scopes that were left.
`doc?` is the last documentation comment that no declaration has taken yet. -/
structure State where
  uri : String
  source : String
  imports : Imports
  globals : VariableScope
  scopes : List VariableScope
  finished : List VariableScope
  classes : List ClassContext
  doc? : Option DocComment
  symbols : List Symbol
  references : List Reference

namespace State

def start (uri source : String) : State :=
  { uri, source
    imports := .empty
    globals := .empty (.of uri ⟨0, .ofNat source.utf8ByteSize⟩)
    scopes := []
    finished := []
    classes := []
    doc? := none
    symbols := []
    references := [] }

/-- The text at a range, empty if the range does not cover whole characters. -/
def text (s : State) (range : Range) : String :=
  (Text.slice? s.source range.start.toNat range.stop.toNat).getD ""

def locate (s : State) (range : Range) : Location := .of s.uri range

/-! ## Variables -/

def innermost (s : State) : VariableScope := s.scopes.head?.getD s.globals

def bind (s : State) (name : String) (types : TypeUnion) : State :=
  match s.scopes with
  | [] => { s with globals := s.globals.bind name types }
  | scope :: outer => { s with scopes := scope.bind name types :: outer }

/-- The types bound to a variable in the innermost scope. -/
def variableTypes (s : State) (name : String) : TypeUnion :=
  (s.innermost.get? name).getD .empty

/-- A use of a variable, with the types bound so far. -/
def variableReference (s : State) (name : String) (range : Range) : Item :=
  .reference
    { kind := .variable
      types := .single (.ofSource name)
      location := s.locate range
      scopeRange? := s.innermost.range? }
    (s.variableTypes name)

def openScope (s : State) (scope : VariableScope) : State :=
  { s with scopes := scope :: s.scopes }

def closeScope (s : State) : State :=
  match s.scopes with
  | [] => s
  | scope :: outer => { s with scopes := outer, finished := s.finished ++ [scope] }

/-! ## Classes -/

/-- The class that a member declared here is recorded for: a named one. -/
def memberScope? (s : State) : Option String :=
  match s.classes with
  | [] => none
  | c :: _ => if c.anonymous || c.name.isEmpty then none else some c.name

def openClass (s : State) (c : ClassContext) : State := { s with classes := c :: s.classes }

def closeClass (s : State) : State := { s with classes := s.classes.tail }

def modifyClass (s : State) (f : ClassContext → ClassContext) : State :=
  match s.classes with
  | [] => s
  | c :: outer => { s with classes := f c :: outer }

/-- What the words for the class around stand for here. -/
def relativeClass? (s : State) (word : String) : Option String :=
  match s.classes with
  | [] => none
  | c :: _ =>
    if word = "parent" then c.parent?
    else if c.name.isEmpty then none else some c.name

/-- A class name as spelled. The words for the class around are replaced by what they stand for,
or kept if there is no such class. -/
def resolveClass (s : State) (raw : String) : TypeName :=
  let raw := Text.trimBlank raw
  let word := Text.lowerAscii raw
  if word ∈ ["self", "static", "parent"] then
    match s.relativeClass? word with
    | some name => .ofAbsolute name
    | none => .ofSource raw
  else (TypeName.ofSource raw).resolve s.imports

def isRelative (name : String) : Bool := name ∈ ["self", "static", "parent"]

/-- Resolves a type name. Variables and other absolute names stand as they are. -/
def resolveType (s : State) (t : TypeName) : TypeName :=
  if t.isVariable || t.absolute && !isRelative t.name then t else s.resolveClass t.name

def resolveTypes (s : State) (u : TypeUnion) : TypeUnion := .ofList (u.types.map s.resolveType)

/-- A use of a class name. -/
def classReference (s : State) (name : TypeName) (range : Range) : Item :=
  .reference { kind := .className, types := .single name, location := s.locate range } .empty

/-! ## Declarations read before -/

/-- The union of the types of all declarations that the function picks. -/
def typesWhere (s : State) (pick : Symbol → Option TypeUnion) : TypeUnion :=
  (s.symbols.filterMap pick).foldl TypeUnion.merge .empty

/-- What functions of this absolute name, or of its last segment, return. -/
def functionTypes (s : State) (name : String) : TypeUnion :=
  s.typesWhere fun
    | .function f =>
      if f.name = name ∨ f.name = Text.afterLast '\\' name then some f.signature.returnTypes
      else none
    | _ => none

def constantTypes (s : State) (name : String) : TypeUnion :=
  s.typesWhere fun
    | .constant c => if c.name = name then some c.types else none
    | _ => none

/-- Whether a reference of this kind can mean the declaration. -/
def reaches (kind : ReferenceKind) (symbol : Symbol) : Bool :=
  match kind, symbol with
  | .methodCall, .method _ => true
  | .staticMethod, .method _ => true
  | .propertyAccess, .property _ => true
  | .staticProperty, .property _ => true
  | .classConstant, .classConstant _ => true
  | _, _ => false

/-- The types of a member, over all classes of the scope. -/
def memberTypes (s : State) (scope : TypeUnion) (name : String) (kind : ReferenceKind) :
    TypeUnion :=
  s.typesWhere fun symbol =>
    match symbol.scope? with
    | some owner =>
      if symbol.name = name ∧ scope.contains owner ∧ reaches kind symbol then symbol.valueTypes?
      else none
    | none => none

/-! ## Findings -/

/-- Records a declaration, or a reference that stands in the document. -/
def record (s : State) : Item → State
  | .symbol symbol => { s with symbols := s.symbols ++ [symbol] }
  | .reference r _ =>
    if r.location.isEmpty then s else { s with references := s.references ++ [r] }
  | _ => s

end State
end PhpIndex.Extract
