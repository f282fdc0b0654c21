import PhpIndex.Extract.State

/-!
# Class declarations in the source

Classes, interfaces, traits and enums, the lists of names in their heads, and enum cases.
-/
namespace PhpIndex.Extract

/-- Takes a modifier keyword into the flags of a declaration. Other items change nothing. -/
def withModifier (flags : Modifiers × Visibility) (item : Item) : Modifiers × Visibility :=
  match item.modifier? with
  | some (.modifier m) => (flags.1.union m, flags.2)
  | some (.visibility v) => (flags.1, flags.2.union v)
  | none => flags

/-- Members are public unless said otherwise. -/
def orPublic (v : Visibility) : Visibility := if v = {} then { isPublic := true } else v

/-- A list of class names: behind `extends` or `implements`, or of used traits. -/
structure NameList where
  role : NameRole
  names : List (String × Range) := []
  deriving DecidableEq

namespace NameList

def accept (l : NameList) (item : Item) (place : Place) (s : State) : NameList × Bool :=
  match item with
  | .name text range =>
    if place.isChild then
      ({ l with names := l.names ++ [((s.resolveClass text).name, range)] }, true)
    else (l, false)
  | _ => (l, false)

def finish (l : NameList) (s : State) : List Item :=
  l.names.map (fun n => s.classReference (.ofAbsolute n.1) n.2) ++
    [.names l.role (l.names.map Prod.fst)]

end NameList

/-- The body of a class; `sort?` is missing for an anonymous one. -/
structure ClassBody where
  sort? : Option ClassSort
  name? : Option String := none
  modifiers : Modifiers := {}
  parents : List String := []
  interfaces : List String := []
  traits : List String := []
  doc? : Option DocComment := none
  deriving DecidableEq

namespace ClassBody

def start (sort? : Option ClassSort) : StateM State ClassBody := do
  modify fun s => s.openClass { anonymous := sort?.isNone }
  return { sort? }

/-- The first name behind `extends` becomes what the word `parent` stands for. -/
def acceptNames (c : ClassBody) (names : List String) : NameRole → StateM State ClassBody
  | .parents => do
    modify fun s => s.modifyClass fun context => { context with parent? := names.head? }
    return { c with parents := c.parents ++ names }
  | .interfaces => return { c with interfaces := c.interfaces ++ names }
  | .traits => return { c with traits := c.traits ++ names }

/-- The arguments behind `new class` are left to the expression. -/
def accept (c : ClassBody) (item : Item) (place : Place) : StateM State (ClassBody × Bool) :=
  match item with
  | .name text _ =>
    if place.isField "name" && c.sort?.isSome then do
      let name := (← get).imports.namespaced text
      modify fun s => s.modifyClass fun context => { context with name }
      return ({ c with name? := some name }, true)
    else return (c, true)
  | .names role names => return (← c.acceptNames names role, true)
  | .arguments _ => return (c, !place.isChild)
  | .modifier _ =>
    if place.isChild then
      return ({ c with modifiers := (withModifier (c.modifiers, {}) item).1 }, true)
    else return (c, false)
  | _ => return (c, item.isFragment)

/-- An anonymous class is a value of the type of its parent. -/
def finish (c : ClassBody) (range : Range) : StateM State (List Item) := do
  let s ← get
  set s.closeClass
  match c.sort?, c.name? with
  | none, _ =>
    let parent := (s.classes.head?.bind ClassContext.parent?).toList
    return [.value (.ofList (parent.map TypeName.ofAbsolute)) range]
  | some _, none => return []
  | some sort, some name =>
    return [.symbol (.classLike
      { sort, name
        location := s.locate range
        modifiers := c.modifiers
        parents := c.parents
        interfaces := c.interfaces
        traits := c.traits
        description? := c.doc?.bind DocComment.description? })]

end ClassBody

/-- A case of an enum: a constant of the enum's own type. -/
structure EnumCase where
  name? : Option String := none
  value? : Option Range := none
  deriving DecidableEq

namespace EnumCase

def acceptValue (e : EnumCase) (item : Item) : EnumCase × Bool :=
  match item.value? with
  | some (range, _) => ({ e with value? := some range }, true)
  | none => (e, false)

def accept (e : EnumCase) (item : Item) (place : Place) : EnumCase × Bool :=
  match item with
  | .name text _ =>
    if e.name?.isNone && !place.isField "value" then ({ e with name? := some text }, true)
    else e.acceptValue item
  | _ => e.acceptValue item

def finish (e : EnumCase) (range : Range) (s : State) : List Item :=
  match e.name?, s.memberScope? with
  | some name, some scope =>
    [.symbol (.classConstant
      { name, scope
        location := s.locate range
        visibility := { isPublic := true }
        value? := e.value?.map s.text
        types := .single (.ofAbsolute scope)
        description? := none })]
  | _, _ => []

end EnumCase
end PhpIndex.Extract
