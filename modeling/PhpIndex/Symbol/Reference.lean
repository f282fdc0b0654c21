import PhpIndex.Name.TypeUnion
import PhpIndex.Source.Range

/-!
# References

A use of a name at a place in the source: what is named, where the whole construct stands, and
for a member the types of what it is taken from.
-/
namespace PhpIndex

inductive ReferenceKind where
  /-- A function called by name. -/
  | function
  | variable
  /-- A class name in a type, behind `extends`, or in front of a double colon. -/
  | className
  /-- The class named behind `new`. -/
  | newOperand
  | staticMethod
  | methodCall
  | staticProperty
  | propertyAccess
  | classConstant
  /-- A double colon with nothing behind it yet. -/
  | scopedAccess
  | constantAccess
  /-- The parenthesised arguments of a call. -/
  | argumentList
  deriving DecidableEq

namespace ReferenceKind

def all : List ReferenceKind :=
  [.function, .variable, .className, .newOperand, .staticMethod, .methodCall, .staticProperty,
   .propertyAccess, .classConstant, .scopedAccess, .constantAccess, .argumentList]

/-- The number under which a record keeps the kind. -/
def code : ReferenceKind → UInt32
  | .function => 1
  | .variable => 2
  | .className => 3
  | .newOperand => 4
  | .staticMethod => 5
  | .methodCall => 6
  | .staticProperty => 7
  | .propertyAccess => 8
  | .classConstant => 9
  | .scopedAccess => 10
  | .constantAccess => 11
  | .argumentList => 12

def ofCode? (code : UInt32) : Option ReferenceKind := all.find? (fun k => k.code == code)

theorem ofCode?_code (k : ReferenceKind) : ofCode? k.code = some k := by cases k <;> decide

/-- Taken from a class with a double colon. -/
def isStaticAccess : ReferenceKind → Bool
  | .staticMethod => true
  | .staticProperty => true
  | .classConstant => true
  | .scopedAccess => true
  | _ => false

/-- Taken from an object with an arrow. -/
def isInstanceAccess : ReferenceKind → Bool
  | .methodCall => true
  | .propertyAccess => true
  | _ => false

def isMember (k : ReferenceKind) : Bool := k.isStaticAccess || k.isInstanceAccess

end ReferenceKind

/-- `location` covers the whole construct, `memberRange?` the member's name alone. `arguments`
are the ranges of the single arguments of an argument list. -/
structure Reference where
  kind : ReferenceKind
  types : TypeUnion
  location : Location
  scope? : Option TypeUnion := none
  scopeRange? : Option Range := none
  memberRange? : Option Range := none
  arguments : List Range := []
  deriving DecidableEq

namespace Reference

/-- Without a type to take the member from the reference keeps no scope. -/
def withScope (r : Reference) (scope : TypeUnion) : Reference :=
  if scope.isEmpty then r else { r with scope? := some scope }

def withScopeRange (r : Reference) (range : Range) : Reference :=
  { r with scopeRange? := some range }

def withMemberRange (r : Reference) (range : Range) : Reference :=
  { r with memberRange? := some range }

/-- The name referred to, empty if there is none. -/
def name (r : Reference) : String := (r.types.first?.map TypeName.name).getD ""

def range? (r : Reference) : Option Range := r.location.range?

end Reference
end PhpIndex
