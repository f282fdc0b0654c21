import PhpIndex.Extract.State

/-!
# Calls and member accesses in the source

Calls of functions, object creation and access to members. Each leaves a reference to what is
named, and one to its arguments if it has any.
-/
namespace PhpIndex.Extract

/-- The argument that a node holds: its last expression. -/
structure ArgumentEntry where
  value? : Option (Range × TypeUnion) := none
  deriving DecidableEq

namespace ArgumentEntry

/-- The name of a named argument is no part of its value. -/
def accept (a : ArgumentEntry) (item : Item) (place : Place) : ArgumentEntry × Bool :=
  if place.isField "name" then
    match item with
    | .name .. => (a, true)
    | _ => (a, false)
  else ({ a with value? := item.value?.or a.value? }, item.isFragment)

def finish (a : ArgumentEntry) (range : Range) : List Item :=
  let (valueRange, value) := a.value?.getD (range, .empty)
  [.argument { range, valueRange, value }]

end ArgumentEntry

/-- The arguments between parentheses. -/
structure ArgumentEntries where
  arguments : List Argument := []
  deriving DecidableEq

namespace ArgumentEntries

def accept (l : ArgumentEntries) (item : Item) : ArgumentEntries × Bool :=
  match item with
  | .argument a => (⟨l.arguments ++ [a]⟩, true)
  | _ => (l, item.isFragment)

def finish (l : ArgumentEntries) (range : Range) : List Item := [.arguments ⟨range, l.arguments⟩]

end ArgumentEntries

/-- The reference to the arguments of a call. A call of a member keeps its scope even if that
is unknown. -/
def argumentReference (callee : TypeUnion) (scope? : Option TypeUnion) (l : ArgumentList)
    (s : State) : Item :=
  .reference
    { kind := .argumentList
      types := callee
      location := s.locate l.range
      scope?
      scopeRange? := s.innermost.range?
      arguments := l.arguments.map Argument.range }
    .empty

/-- A call of a function by name, or of `define`. -/
structure FunctionCall where
  callee? : Option (String × Range) := none
  arguments? : Option ArgumentList := none
  doc? : Option DocComment := none
  deriving DecidableEq

namespace FunctionCall

def accept (c : FunctionCall) (item : Item) (place : Place) : FunctionCall × Bool :=
  match item with
  | .name text range =>
    if place.isField "function" then ({ c with callee? := some (text, range) }, true)
    else (c, true)
  | .arguments l => ({ c with arguments? := some l }, true)
  | _ => (c, item.isFragment)

/-- The text between quotes of one sort. -/
def unquote? (quoted : String) : Option String :=
  ((Text.afterLead? "'" quoted).bind (Text.beforeTail? "'")).or
    ((Text.afterLead? "\"" quoted).bind (Text.beforeTail? "\""))

/-- The constant that a call of `define` declares, if its name is written out. -/
def defined? (c : FunctionCall) (range : Range) (s : State) : Option ConstantDecl := do
  let arguments := (c.arguments?.map ArgumentList.arguments).getD []
  let first ← arguments.head?
  let name := Imports.trimLead (← unquote? (Text.trimBlank (s.text first.valueRange)))
  if name.isEmpty then none
  else
    let second := arguments[1]?
    some
      { viaDefine := true
        name
        location := s.locate range
        value? := second.map (fun a => s.text a.valueRange)
        types := (second.map (fun a => s.resolveTypes a.value)).getD .empty
        description? := c.doc?.bind DocComment.description? }

def isDefine (name : String) : Bool := Text.lowerAscii (Imports.trimLead name) = "define"

def plain (c : FunctionCall) (name : String) (callee : Range) (s : State) : List Item :=
  let target := s.imports.absoluteName name .function
  let types : TypeUnion := .single (.ofAbsolute target)
  let arguments :=
    match c.arguments? with
    | some l => if l.range.isEmpty then [] else [argumentReference types none l s]
    | none => []
  arguments ++
    [.reference { kind := .function, types, location := s.locate callee } (s.functionTypes target)]

/-- A call of anything but a name is a value of unknown type. -/
def finish (c : FunctionCall) (range : Range) (s : State) : List Item :=
  match c.callee? with
  | none => [.value .empty range]
  | some (name, callee) =>
    match if isDefine name then c.defined? range s else none with
    | some constant =>
      [.symbol (.constant constant), .value (.single (.ofSource "bool")) range]
    | none => c.plain name callee s

end FunctionCall

/-- The creation of an object, of a named class or of an anonymous one. -/
structure Creation where
  class? : Option (TypeName × Range) := none
  types : TypeUnion := .empty
  anonymous : Bool := false
  arguments? : Option ArgumentList := none
  deriving DecidableEq

namespace Creation

def accept (c : Creation) (item : Item) (place : Place) (s : State) : Creation × Bool :=
  match item with
  | .arguments l => ({ c with arguments? := some l }, true)
  | .name text range =>
    if place.isChild && c.class?.isNone then
      let name := s.resolveClass text
      ({ c with class? := some (name, range), types := c.types.push name }, true)
    else (c, true)
  | .type types range =>
    if place.isChild && c.class?.isNone then
      ({ c with
          class? := types.first?.map (fun t => (t, range))
          types := c.types.merge types }, true)
    else (c, true)
  | .value types _ =>
    if place.isChild then ({ c with anonymous := true, types := c.types.merge types }, true)
    else (c, true)
  | .names role names =>
    let parents := if role = .parents then names.map TypeName.ofAbsolute else []
    ({ c with anonymous := true, types := parents.foldl TypeUnion.push c.types }, true)
  | _ => (c, item.isFragment)

def finish (c : Creation) (range : Range) (s : State) : List Item :=
  match c.class? with
  | none => [.value c.types range]
  | some (name, nameRange) =>
    if c.anonymous then [.value c.types range]
    else
      let constructor : TypeUnion := .single (.verbatim "__construct")
      let arguments :=
        c.arguments?.toList.map fun l => argumentReference constructor (some c.types) l s
      arguments ++
        [.reference
          { kind := .newOperand, types := .single name, location := s.locate nameRange } c.types]

end Creation

/-- An access to a member. `scopeReference?` is the use of the class name in front of it. -/
structure MemberAccess where
  kind : ReferenceKind
  scope? : Option TypeUnion := none
  scopeReference? : Option Item := none
  name? : Option (String × Range) := none
  computedName : Bool := false
  arguments? : Option ArgumentList := none
  deriving DecidableEq

namespace MemberAccess

/-- The parts of a class constant bear no names: the class comes first, then the member. -/
def isPositional (m : MemberAccess) : Bool := m.kind = .classConstant

def isScope (m : MemberAccess) (place : Place) : Bool :=
  place.isField "object" || place.isField "scope" ||
    (m.isPositional && place.isChild && m.scope?.isNone)

def isName (m : MemberAccess) (place : Place) : Bool :=
  place.isField "name" || (m.isPositional && place.isChild && m.scope?.isSome)

/-- A variable of unknown type is kept by name, to be looked up where the member is asked for. -/
def acceptScope (m : MemberAccess) (item : Item) (s : State) : MemberAccess :=
  match item with
  | .name text range =>
    let name := s.resolveClass text
    { m with
      scope? := some (.single name)
      scopeReference? := some (s.classReference name range) }
  | .reference r value =>
    if r.kind = .variable && value.isEmpty then
      { m with scope? := some (.single (.verbatim r.name)) }
    else { m with scope? := some value }
  | .value types _ => { m with scope? := some types }
  | .type types _ => { m with scope? := some types }
  | _ => { m with scope? := some .empty }

def acceptOther (m : MemberAccess) (item : Item) (place : Place) (s : State) :
    MemberAccess × Bool :=
  if m.isName place && item.value?.isSome then ({ m with computedName := true }, true)
  else if m.isScope place then (m.acceptScope item s, true)
  else (m, item.isFragment)

def accept (m : MemberAccess) (item : Item) (place : Place) (s : State) : MemberAccess × Bool :=
  match item with
  | .arguments l => ({ m with arguments? := some l }, true)
  | .name text range =>
    if m.isName place then ({ m with name? := some (text, range) }, true)
    else m.acceptOther item place s
  | _ => m.acceptOther item place s

/-- With no member behind a double colon there still is a place to complete at. -/
def unnamed (m : MemberAccess) (range : Range) (s : State) : Item :=
  if m.kind.isStaticAccess && !m.computedName then
    let r : Reference :=
      { kind := .scopedAccess
        types := .empty
        location := s.locate range
        scopeRange? := s.innermost.range? }
    .reference (r.withScope (m.scope?.getD .empty)) .empty
  else .value .empty range

/-- The reference reaches from the start of the access to the end of the member's name. -/
def named (m : MemberAccess) (raw : String) (nameRange range : Range) (s : State) : List Item :=
  let scope := m.scope?.getD .empty
  let name := if m.kind = .staticProperty then Text.trimStart (· == '$') raw else raw
  let types : TypeUnion := .single (.verbatim name)
  let arguments := m.arguments?.toList.map fun l => argumentReference types (some scope) l s
  let value :=
    if m.kind = .classConstant && Text.lowerAscii name = "class" then .single (.ofSource "string")
    else s.memberTypes scope name m.kind
  let r : Reference :=
    { kind := m.kind
      types
      location := s.locate ⟨range.start, nameRange.stop⟩
      scopeRange? := s.innermost.range?
      memberRange? := some nameRange }
  arguments ++ [.reference (r.withScope scope) value]

def finish (m : MemberAccess) (range : Range) (s : State) : List Item :=
  m.scopeReference?.toList ++
    match m.name? with
    | none => [m.unnamed range s]
    | some (raw, nameRange) => m.named raw nameRange range s

end MemberAccess
end PhpIndex.Extract
