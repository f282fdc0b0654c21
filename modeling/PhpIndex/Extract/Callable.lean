import PhpIndex.Extract.ClassBody

/-!
# Functions in the source

Functions, methods and closures. Each opens a scope for its variables when its node is entered
and closes it when the node is left.
-/
namespace PhpIndex.Extract

inductive CallableSort where
  | function
  | method
  | closure
  | arrow
  deriving DecidableEq

/-- `declared` are the types of the return type in the head, `inferred` those of the values that
the body returns. -/
structure Callable where
  sort : CallableSort
  name? : Option String := none
  modifiers : Modifiers := {}
  visibility : Visibility := {}
  parameters : List Parameter := []
  declared : TypeUnion := .empty
  inferred : TypeUnion := .empty
  doc? : Option DocComment := none
  deriving DecidableEq

namespace Callable

/-- The scope in which a body starts. A method knows its own object, a closure the object around
it, and an arrow function all variables around it. -/
def scopeFor (sort : CallableSort) (range : Range) (s : State) : VariableScope :=
  let scope := VariableScope.empty (s.locate range)
  match sort with
  | .function => scope
  | .method =>
    match s.memberScope? with
    | some owner => scope.bind "$this" (.single (.ofAbsolute owner))
    | none => scope
  | .closure =>
    match s.innermost.get? "$this" with
    | some types => scope.bind "$this" types
    | none => scope
  | .arrow => { scope with types := s.innermost.types }

def start (sort : CallableSort) (range : Range) : StateM State Callable := do
  modify fun s => s.openScope (scopeFor sort range s)
  return { sort }

/-- Parameters without a type take the one that the documentation declares. -/
def acceptParameter (c : Callable) (p : Parameter) : StateM State Callable := do
  match c.doc?.bind (fun doc => doc.paramTypes? p.name) with
  | some declared =>
    if p.types.isEmpty then
      let types := (← get).resolveTypes declared
      modify fun s => s.bind p.name types
      return { c with parameters := c.parameters ++ [{ p with types }] }
    else return { c with parameters := c.parameters ++ [p] }
  | none => return { c with parameters := c.parameters ++ [p] }

/-- The body of an arrow function is the value that it returns. -/
def acceptFragment (c : Callable) (item : Item) (place : Place) : Callable × Bool :=
  if c.sort = .arrow && place.isField "body" then
    ({ c with inferred := c.inferred.merge (item.types?.getD .empty) }, item.isFragment)
  else (c, item.isFragment)

def accept (c : Callable) (item : Item) (place : Place) : StateM State (Callable × Bool) :=
  match item with
  | .name text _ =>
    if place.isField "name" then return ({ c with name? := some text }, true)
    else return c.acceptFragment item place
  | .modifier _ =>
    if place.isChild then
      let (modifiers, visibility) := withModifier (c.modifiers, c.visibility) item
      return ({ c with modifiers, visibility }, true)
    else return (c, false)
  | .parameter p => return (← c.acceptParameter p, true)
  | .type types _ =>
    if place.isField "return_type" then
      return ({ c with declared := c.declared.merge types }, true)
    else return (c, true)
  | .returned types => return ({ c with inferred := c.inferred.merge types }, true)
  | .captured => return (c, true)
  | _ => return c.acceptFragment item place

/-- Declared types come first, then documented ones, then those of the returned values. -/
def signature (c : Callable) (s : State) : Signature :=
  let documented := (c.doc?.map DocComment.returns).getD .empty
  { parameters := c.parameters
    returnTypes := (c.declared.merge (s.resolveTypes documented)).merge c.inferred }

/-- Methods outside a named class are not recorded. -/
def finish (c : Callable) (range : Range) : StateM State (List Item) := do
  modify State.closeScope
  let s ← get
  let location := s.locate range
  let description? := c.doc?.bind DocComment.description?
  match c.sort, c.name? with
  | .closure, _ => return [.value (.single (.ofAbsolute "Closure")) range]
  | .arrow, _ => return [.value (.single (.ofAbsolute "Closure")) range]
  | _, none => return []
  | .function, some name =>
    return [.symbol (.function
      { name := s.imports.namespaced name
        location
        signature := c.signature s
        description? })]
  | .method, some name =>
    match s.memberScope? with
    | none => return []
    | some scope =>
      return [.symbol (.method
        { name, scope, location
          modifiers := c.modifiers
          visibility := orPublic c.visibility
          signature := c.signature s
          description? })]

end Callable

/-- The variables that a closure captures. -/
structure Captures where
  names : List String := []
  deriving DecidableEq

namespace Captures

def accept (c : Captures) (item : Item) (place : Place) : Captures × Bool :=
  match item.variableName? with
  | some name => if place.isChild then (⟨c.names ++ [name]⟩, true) else (c, false)
  | none => (c, false)

/-- Binds a variable to the types that it has in the scope around. At the top level there is no
scope around. -/
def capture (s : State) (name : String) : State :=
  match s.scopes with
  | [] => s
  | _ :: outer => s.bind name (((outer.head?.getD s.globals).get? name).getD .empty)

def finish (c : Captures) : StateM State (List Item) := do
  modify fun s => c.names.foldl capture s
  return [.captured]

end Captures

/-- A parameter in the source. A promoted one declares a property as well. -/
structure ParameterEntry where
  promoted : Bool
  variadic : Bool
  byReference : Bool := false
  name? : Option (String × Range) := none
  types : TypeUnion := .empty
  default? : Option String := none
  modifiers : Modifiers := {}
  visibility : Visibility := {}
  deriving DecidableEq

namespace ParameterEntry

def acceptFragment (p : ParameterEntry) (item : Item) (place : Place) (s : State) :
    ParameterEntry × Bool :=
  match item.value? with
  | some (range, _) =>
    if place.isField "default_value" then ({ p with default? := some (s.text range) }, true)
    else (p, true)
  | none => (p, item.isFragment)

/-- The variable is bound as soon as its name was read, to the types that stand in front. -/
def accept (p : ParameterEntry) (item : Item) (place : Place) :
    StateM State (ParameterEntry × Bool) :=
  match item with
  | .type types _ =>
    if place.isField "type" || p.name?.isNone then
      return ({ p with types := p.types.merge types }, true)
    else return (p, true)
  | .token text =>
    if text = "&" then return ({ p with byReference := true }, true)
    else if text = "..." then return ({ p with variadic := true }, true)
    else return (p, false)
  | .modifier _ =>
    let (modifiers, visibility) := withModifier (p.modifiers, p.visibility) item
    return ({ p with modifiers, visibility }, true)
  | .name text range => do
    if Text.startsWith "$" text && p.name?.isNone then
      modify fun s => s.bind text p.types
      return ({ p with name? := some (Text.trimStart (· == '$') text, range) }, true)
    else return p.acceptFragment item place (← get)
  | _ => return p.acceptFragment item place (← get)

def finish (p : ParameterEntry) (s : State) : List Item :=
  match p.name? with
  | none => []
  | some (name, range) =>
    let location := s.locate range
    let parameter : Item := .parameter
      { name, location
        types := p.types
        default? := p.default?
        byReference := p.byReference
        variadic := p.variadic }
    match s.memberScope? with
    | none => [parameter]
    | some scope =>
      if p.promoted then
        [.symbol (.property
          { name, scope, location
            modifiers := p.modifiers
            visibility := orPublic p.visibility
            types := p.types
            description? := none }),
         parameter]
      else [parameter]

end ParameterEntry

/-- A type in the source: one name, or a union or intersection of types. -/
structure TypeHint where
  nullable : Bool
  types : TypeUnion := .empty
  references : List Item := []
  deriving DecidableEq

namespace TypeHint

def accept (h : TypeHint) (item : Item) (place : Place) (s : State) : TypeHint × Bool :=
  match item with
  | .name text range =>
    if place.isChild then
      let name := s.resolveClass text
      ({ h with
          types := h.types.push name
          references := h.references ++ [s.classReference name range] }, true)
    else (h, false)
  | .type types _ => ({ h with types := h.types.merge types }, true)
  | .token text => if text = "?" then ({ h with nullable := true }, true) else (h, false)
  | _ => (h, false)

def finish (h : TypeHint) (range : Range) : List Item :=
  let types := if h.nullable then h.types.push (.ofSource "null") else h.types
  h.references ++ [.type types range]

end TypeHint
end PhpIndex.Extract
