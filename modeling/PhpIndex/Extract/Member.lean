import PhpIndex.Extract.ClassBody

/-!
# Properties and constants in the source

Declarations that name several properties or constants at once, each with its own value.
-/
namespace PhpIndex.Extract

/-- One name of the declaration and its value. -/
structure ElementEntry where
  name? : Option String := none
  value? : Option (Range × TypeUnion) := none
  deriving DecidableEq

namespace ElementEntry

def acceptValue (e : ElementEntry) (item : Item) (s : State) : ElementEntry × Bool :=
  match item.value? with
  | some (range, types) =>
    if e.name?.isSome then ({ e with value? := some (range, s.resolveTypes types) }, true)
    else (e, true)
  | none => (e, item.isFragment)

def accept (e : ElementEntry) (item : Item) (s : State) : ElementEntry × Bool :=
  match item with
  | .name text _ =>
    if e.name?.isNone then ({ e with name? := some text }, true) else e.acceptValue item s
  | .token text => (e, text = "=")
  | _ => e.acceptValue item s

def finish (e : ElementEntry) (range : Range) : List Item :=
  match e.name? with
  | some name =>
    [.element ⟨name, range, e.value?.map Prod.fst, (e.value?.map Prod.snd).getD .empty⟩]
  | none => []

end ElementEntry

structure PropertyGroup where
  modifiers : Modifiers := {}
  visibility : Visibility := {}
  types : TypeUnion := .empty
  elements : List Element := []
  doc? : Option DocComment := none
  deriving DecidableEq

namespace PropertyGroup

def withFlags (g : PropertyGroup) (item : Item) : PropertyGroup :=
  let (modifiers, visibility) := withModifier (g.modifiers, g.visibility) item
  { g with modifiers, visibility }

def accept (g : PropertyGroup) (item : Item) (place : Place) : PropertyGroup × Bool :=
  match item with
  | .modifier _ => (g.withFlags item, true)
  | .token text => (g.withFlags item, item.modifier?.isSome || text = ",")
  | .type types _ =>
    if place.isChild then ({ g with types := g.types.merge types }, true) else (g, true)
  | .element e => ({ g with elements := g.elements ++ [e] }, true)
  | _ => (g, item.isFragment)

/-- Each property has the declared types, then the documented ones, then those of its value. -/
def finish (g : PropertyGroup) (s : State) : List Item :=
  match s.memberScope? with
  | none => []
  | some scope =>
    let documented := ((g.doc?.bind DocComment.var?).map VarTag.types).getD .empty
    let declared := g.types.merge (s.resolveTypes documented)
    g.elements.map fun e => .symbol (.property
      { name := Text.trimStart (· == '$') e.name
        scope
        location := s.locate e.range
        modifiers := g.modifiers
        visibility := orPublic g.visibility
        types := declared.merge e.value
        description? := g.doc?.bind DocComment.description? })

end PropertyGroup

structure ConstantGroup where
  visibility : Visibility := {}
  elements : List Element := []
  doc? : Option DocComment := none
  deriving DecidableEq

namespace ConstantGroup

def withFlags (g : ConstantGroup) (item : Item) : ConstantGroup :=
  { g with visibility := (withModifier ({}, g.visibility) item).2 }

def accept (g : ConstantGroup) (item : Item) : ConstantGroup × Bool :=
  match item with
  | .modifier _ => (g.withFlags item, true)
  | .token _ => (g.withFlags item, item.modifier?.isSome)
  | .element e => ({ g with elements := g.elements ++ [e] }, true)
  | _ => (g, item.isFragment)

def constant (g : ConstantGroup) (s : State) (e : Element) : Symbol :=
  .constant
    { viaDefine := false
      name := s.imports.namespaced e.name
      location := s.locate e.range
      value? := e.valueRange?.map s.text
      types := e.value
      description? := g.doc?.bind DocComment.description? }

def classConstant (g : ConstantGroup) (s : State) (scope : String) (e : Element) : Symbol :=
  .classConstant
    { name := e.name
      scope
      location := s.locate e.range
      visibility := orPublic g.visibility
      value? := e.valueRange?.map s.text
      types := e.value
      description? := g.doc?.bind DocComment.description? }

/-- Constants of an anonymous class are not recorded; outside of a named class they belong to
the namespace. -/
def finish (g : ConstantGroup) (s : State) : List Item :=
  if s.classes.head?.any ClassContext.anonymous then []
  else
    match s.memberScope? with
    | some scope => g.elements.map fun e => .symbol (g.classConstant s scope e)
    | none => g.elements.map fun e => .symbol (g.constant s e)

end ConstantGroup
end PhpIndex.Extract
