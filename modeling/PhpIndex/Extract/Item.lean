import PhpIndex.Symbol.Basic
import PhpIndex.Symbol.Reference

/-!
# Items

What a node of the syntax tree turns into once it was read to its end, and the place of that
node as seen from a node around it. The nodes around take the items up, innermost first.
-/
namespace PhpIndex.Extract

/-- An argument of a call. `valueRange` leaves out the name or the dots in front. -/
structure Argument where
  range : Range
  valueRange : Range
  value : TypeUnion
  deriving DecidableEq

/-- The arguments of a call with the range of their parentheses. -/
structure ArgumentList where
  range : Range
  arguments : List Argument
  deriving DecidableEq

/-- One name of a declaration of properties or constants. -/
structure Element where
  name : String
  range : Range
  valueRange? : Option Range
  value : TypeUnion
  deriving DecidableEq

/-- One name of a `use` statement. -/
structure UseClause where
  name : String
  range : Range
  alias? : Option String
  kind? : Option ImportKind
  deriving DecidableEq

/-- The lists of class names that a class declaration holds. -/
inductive NameRole where
  | parents
  | interfaces
  | traits
  deriving DecidableEq

inductive Item where
  | token (text : String)
  /-- A name as it is spelled. Declared variables and properties keep their dollar sign. -/
  | name (text : String) (range : Range)
  | type (types : TypeUnion) (range : Range)
  | modifier (word : ModifierWord)
  /-- An expression that is known by its types only. -/
  | value (types : TypeUnion) (range : Range)
  | reference (r : Reference) (value : TypeUnion)
  | symbol (s : Symbol)
  | parameter (p : Parameter)
  | argument (a : Argument)
  | arguments (l : ArgumentList)
  | names (role : NameRole) (names : List String)
  | useClause (c : UseClause)
  | alias (name : String)
  | element (e : Element)
  | returned (types : TypeUnion)
  | captured
  deriving DecidableEq

namespace Item

def isToken : Item → Bool
  | .token _ => true
  | _ => false

/-- Where an expression stands and the types of its value. -/
def value? : Item → Option (Range × TypeUnion)
  | .value types range => some (range, types)
  | .reference r types => r.range?.map (fun range => (range, types))
  | .name _ range => some (range, .empty)
  | _ => none

/-- The types of the value of an expression. -/
def types? (item : Item) : Option TypeUnion := item.value?.map Prod.snd

/-- The name of a variable that is used, with its dollar sign. -/
def variableName? : Item → Option String
  | .reference r _ => if r.kind = .variable then some r.name else none
  | _ => none

/-- A modifier, also where the grammar took it for a mere keyword. -/
def modifier? : Item → Option ModifierWord
  | .modifier word => some word
  | .token text => ModifierWord.parse? text
  | _ => none

/-- Parts of expressions, which must not reach beyond the construct that they stand in. -/
def isFragment : Item → Bool
  | .value .. => true
  | .reference .. => true
  | .name .. => true
  | .type .. => true
  | .argument _ => true
  | .arguments _ => true
  | _ => false

end Item

/-- How the node of an item stands to the node that it is offered to. -/
inductive Place where
  /-- A child, in the part of this name. -/
  | child (field? : Option String)
  | deeper
  deriving DecidableEq

namespace Place

def isChild : Place → Bool
  | .child _ => true
  | .deeper => false

def field? : Place → Option String
  | .child field => field
  | .deeper => none

def isField (p : Place) (name : String) : Bool := p.field? == some name

end Place
end PhpIndex.Extract
