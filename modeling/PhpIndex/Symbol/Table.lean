import PhpIndex.Symbol.Basic

/-!
# Tables of symbols

The six groups in which declarations are stored and looked up, the names under which a symbol is
found in its group, and the order in which candidates for one name are listed.
-/
namespace PhpIndex

inductive TableKind where
  | classes
  | functions
  | constants
  | methods
  | properties
  | classConstants
  deriving DecidableEq

namespace TableKind

def all : List TableKind :=
  [.classes, .functions, .constants, .methods, .properties, .classConstants]

def topLevel : List TableKind := [.classes, .functions, .constants]

def members : List TableKind := [.methods, .properties, .classConstants]

def index : TableKind → Nat
  | .classes => 0
  | .functions => 1
  | .constants => 2
  | .methods => 3
  | .properties => 4
  | .classConstants => 5

def name : TableKind → String
  | .classes => "class"
  | .functions => "function"
  | .constants => "constant"
  | .methods => "method"
  | .properties => "property"
  | .classConstants => "class_constant"

def isMember (k : TableKind) : Bool := decide (k ∈ members)

end TableKind

/-- The name of a member together with that of its class. -/
def memberKey (owner member : String) : String := owner ++ "@" ++ member

namespace Symbol

/-- Variables are in no table. -/
def table? : Symbol → Option TableKind
  | .classLike _ => some .classes
  | .function _ => some .functions
  | .method _ => some .methods
  | .property _ => some .properties
  | .constant _ => some .constants
  | .classConstant _ => some .classConstants
  | .variable _ => none

/-- The name under which the symbol is stored. -/
def indexName (s : Symbol) : String :=
  match s.scope? with
  | some owner => memberKey owner s.name
  | none => s.name

/-- The word that a user types to reach the symbol. -/
def completionWord (s : Symbol) : String :=
  match s.scope? with
  | some _ => s.name
  | none => s.shortName

/-- Whether the first symbol starts before the second, or ends no later with the same start. -/
def inSourceOrder (a b : Symbol) : Bool :=
  let stop := fun (s : Symbol) => s.location.range?.map Range.stop
  a.location.start < b.location.start ||
    a.location.start == b.location.start &&
      (match stop a, stop b with
        | none, _ => true
        | some _, none => false
        | some x, some y => x ≤ y)

/-- Whether the first symbol is listed no later than the second: by document, then by the
start of the declaration, then by name. -/
def listedBefore (a b : Symbol) : Bool :=
  ((compare a.location.uri b.location.uri).then
    ((compare a.location.start b.location.start).then (compare a.name b.name))).isLE

/-- Drops an element that repeats the one before it. -/
def dropRepeats : List Symbol → List Symbol
  | a :: b :: rest => if a = b then dropRepeats (b :: rest) else a :: dropRepeats (b :: rest)
  | short => short

/-- Candidates in their order, without repeats. -/
def candidates (symbols : List Symbol) : List Symbol :=
  dropRepeats (symbols.mergeSort listedBefore)

end Symbol
end PhpIndex
