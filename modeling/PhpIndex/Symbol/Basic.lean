import PhpIndex.Symbol.Modifiers
import PhpIndex.Symbol.VariableScope

/-!
# Symbols

The declarations of a document. Members know the class that owns them; a variable is no stored
declaration but the answer to a reference to one.
-/
namespace PhpIndex

inductive ClassSort where
  | «class»
  | interface
  | trait
  deriving DecidableEq

structure ClassDecl where
  sort : ClassSort
  name : String
  location : Location
  modifiers : Modifiers := {}
  parents : List String := []
  interfaces : List String := []
  traits : List String := []
  description? : Option String := none
  deriving DecidableEq

namespace ClassDecl

/-- Supertypes in the order in which members are looked up in them. -/
def supertypes (c : ClassDecl) : List String := c.traits ++ c.parents ++ c.interfaces

end ClassDecl

/-- What stands in a label behind something of known value. -/
def valueSuffix : Option String → String
  | some value => " = " ++ value
  | none => ""

/-- Parameters and properties are named without the dollar sign. -/
structure Parameter where
  name : String
  types : TypeUnion := .empty
  default? : Option String := none
  byReference : Bool := false
  variadic : Bool := false
  location : Location
  deriving DecidableEq

namespace Parameter

def label (p : Parameter) : String :=
  (if p.types.isEmpty then "" else p.types.render ++ " ") ++
    (if p.byReference then "&" else "") ++ (if p.variadic then "..." else "") ++ "$" ++ p.name ++
    valueSuffix p.default?

end Parameter

structure Signature where
  parameters : List Parameter
  returnTypes : TypeUnion
  deriving DecidableEq

namespace Signature

def empty : Signature := ⟨[], .empty⟩

instance : Inhabited Signature := ⟨empty⟩

def label (s : Signature) (name : String) : String :=
  name ++ "(" ++ Text.joinWith ", " (s.parameters.map Parameter.label) ++ ")" ++
    (if s.returnTypes.isEmpty then "" else ": " ++ s.returnTypes.render)

end Signature

structure FunctionDecl where
  name : String
  location : Location
  signature : Signature
  description? : Option String
  deriving DecidableEq

structure MethodDecl where
  name : String
  scope : String
  location : Location
  modifiers : Modifiers
  visibility : Visibility
  signature : Signature
  description? : Option String
  deriving DecidableEq

structure PropertyDecl where
  name : String
  scope : String
  location : Location
  modifiers : Modifiers
  visibility : Visibility
  types : TypeUnion
  description? : Option String
  deriving DecidableEq

/-- A constant at the top level, by a `const` statement or by a call of `define`. -/
structure ConstantDecl where
  viaDefine : Bool
  name : String
  location : Location
  value? : Option String
  types : TypeUnion
  description? : Option String
  deriving DecidableEq

structure ClassConstantDecl where
  name : String
  scope : String
  location : Location
  visibility : Visibility
  value? : Option String
  types : TypeUnion
  description? : Option String
  deriving DecidableEq

structure VariableDecl where
  name : String
  location : Location
  types : TypeUnion
  deriving DecidableEq

inductive Symbol where
  | classLike (c : ClassDecl)
  | function (f : FunctionDecl)
  | method (m : MethodDecl)
  | property (p : PropertyDecl)
  | constant (c : ConstantDecl)
  | classConstant (c : ClassConstantDecl)
  | variable (v : VariableDecl)
  deriving DecidableEq

/-- The kinds of declaration that a user tells apart. -/
inductive SymbolKind where
  | «class»
  | interface
  | trait
  | function
  | method
  | property
  | constant
  | classConstant
  | defineConstant
  | variable
  deriving DecidableEq

namespace SymbolKind

def all : List SymbolKind :=
  [.class, .interface, .trait, .function, .method, .property, .constant, .classConstant,
   .defineConstant, .variable]

def name : SymbolKind → String
  | .class => "Class"
  | .interface => "Interface"
  | .trait => "Trait"
  | .function => "Function"
  | .method => "Method"
  | .property => "Property"
  | .constant => "Constant"
  | .classConstant => "ClassConstant"
  | .defineConstant => "DefineConstant"
  | .variable => "Variable"

def ofName? (name : String) : Option SymbolKind := all.find? (fun k => k.name == name)

end SymbolKind

/-- What stands in a label in front of a static member. -/
def staticWord (m : Modifiers) : String := if m.isStatic then "static " else ""

namespace Symbol

def kind : Symbol → SymbolKind
  | .classLike ⟨.class, _, _, _, _, _, _, _⟩ => .class
  | .classLike ⟨.interface, _, _, _, _, _, _, _⟩ => .interface
  | .classLike ⟨.trait, _, _, _, _, _, _, _⟩ => .trait
  | .function _ => .function
  | .method _ => .method
  | .property _ => .property
  | .constant c => if c.viaDefine then .defineConstant else .constant
  | .classConstant _ => .classConstant
  | .variable _ => .variable

def name : Symbol → String
  | .classLike c => c.name
  | .function f => f.name
  | .method m => m.name
  | .property p => p.name
  | .constant c => c.name
  | .classConstant c => c.name
  | .variable v => v.name

/-- The last segment of the name. -/
def shortName (s : Symbol) : String := Text.afterLast '\\' s.name

def location : Symbol → Location
  | .classLike c => c.location
  | .function f => f.location
  | .method m => m.location
  | .property p => p.location
  | .constant c => c.location
  | .classConstant c => c.location
  | .variable v => v.location

/-- The class that owns a member. -/
def scope? : Symbol → Option String
  | .method m => some m.scope
  | .property p => some p.scope
  | .classConstant c => some c.scope
  | _ => none

def description? : Symbol → Option String
  | .classLike c => c.description?
  | .function f => f.description?
  | .method m => m.description?
  | .property p => p.description?
  | .constant c => c.description?
  | .classConstant c => c.description?
  | .variable _ => none

def signature? : Symbol → Option Signature
  | .function f => some f.signature
  | .method m => some m.signature
  | _ => none

def classDecl? : Symbol → Option ClassDecl
  | .classLike c => some c
  | _ => none

/-- Whether a double colon reaches the member; it always reaches a class constant. -/
def isStatic : Symbol → Bool
  | .method m => m.modifiers.isStatic
  | .property p => p.modifiers.isStatic
  | .classConstant _ => true
  | _ => false

/-- The types of what the symbol evaluates to. -/
def valueTypes? : Symbol → Option TypeUnion
  | .classLike _ => none
  | .function f => some f.signature.returnTypes
  | .method m => some m.signature.returnTypes
  | .property p => some p.types
  | .constant c => some c.types
  | .classConstant c => some c.types
  | .variable v => some v.types

/-- The declaration on one line. -/
def label : Symbol → String
  | .classLike c =>
    (match c.sort with
      | .class => "class "
      | .interface => "interface "
      | .trait => "trait ") ++ c.name
  | .function f => "function " ++ f.signature.label f.name
  | .method m =>
    m.visibility.keyword ++ " " ++ staticWord m.modifiers ++ "function " ++ m.scope ++ "::" ++
      m.signature.label m.name
  | .property p =>
    p.visibility.keyword ++ " " ++ staticWord p.modifiers ++
      (if p.types.isEmpty then "" else p.types.render ++ " ") ++ p.scope ++ "::$" ++ p.name
  | .constant c => "const " ++ c.name ++ valueSuffix c.value?
  | .classConstant c => "const " ++ c.scope ++ "::" ++ c.name ++ valueSuffix c.value?
  | .variable v => if v.types.isEmpty then v.name else v.types.render ++ " " ++ v.name

end Symbol
end PhpIndex
