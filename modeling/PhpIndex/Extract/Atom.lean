import PhpIndex.Extract.State
import PhpIndex.Source.SyntaxTree

/-!
# Atoms

Nodes whose meaning is known from their text alone, given the node around them: names,
variables, literals and keywords. What lies in an atom is not read.
-/
namespace PhpIndex.Extract

/-- The nodes right around a node. -/
structure Surroundings where
  parentKind? : Option String
  /-- The kind of the node just in front, under the same parent. -/
  previousKind? : Option String

namespace Surroundings

/-- Whether a node of this kind, in any case, stands just in front. -/
def follows (around : Surroundings) (keyword : String) : Bool :=
  around.previousKind?.any (fun kind => Text.lowerAscii kind = keyword)

/-- Parents under which a bare name stands for a constant. -/
def valueParents : List String :=
  ["expression_statement", "binary_expression", "unary_op_expression", "assignment_expression",
   "augmented_assignment_expression", "return_statement", "parenthesized_expression",
   "array_element_initializer", "conditional_expression", "echo_statement",
   "subscript_expression", "sequence_expression", "match_condition_list",
   "match_conditional_expression", "match_default_expression", "property_initializer",
   "print_intrinsic", "case_statement", "cast_expression", "yield_expression", "arrow_function",
   "arguments", "throw_expression", "clone_expression"]

def isValueField (field? : Option String) : Bool :=
  field? = some "default_value" || field? = some "value"

/-- Whether a bare name here stands for a constant. -/
def isValue (around : Surroundings) (field? : Option String) : Bool :=
  match around.parentKind? with
  | none => false
  | some parent =>
    if parent = "argument" then field? ≠ some "name"
    else if parent ∈ ["simple_parameter", "property_promotion_parameter", "property_element",
        "static_variable_declaration"] then isValueField field?
    else if parent = "const_element" ∨ parent = "enum_case" then around.follows "="
    else parent ∈ valueParents

/-- Whether a variable here is declared as a parameter or property, or named by an access, so
that it is no use of a variable. -/
def declares (around : Surroundings) (field? : Option String) : Bool :=
  match around.parentKind? with
  | none => false
  | some parent =>
    if parent ∈ ["simple_parameter", "variadic_parameter", "property_promotion_parameter",
        "property_element"] then !isValueField field?
    else if parent = "scoped_property_access_expression" ∨
        parent = "static_variable_declaration" then field? = some "name"
    else false

end Surroundings

/-- A use of a constant, with the types that it was declared with before. -/
def State.constantReference (s : State) (name : String) (range : Range) : Item :=
  let target := s.imports.absoluteName name .constant
  .reference
    { kind := .constantAccess
      types := .single (.ofAbsolute target)
      location := s.locate range }
    (s.constantTypes target)

/-- The type between the parentheses of a cast. -/
def castTarget (text : String) : String :=
  let word := Text.trimBoth (fun c => c == '(' || c == ')' || Text.isBlank c) text
  match Text.lowerAscii word with
  | "binary" => "string"
  | "unset" => "null"
  | _ => word

def nameKinds : List String := ["name", "qualified_name", "namespace_name"]

def modifierKinds : List String :=
  ["visibility_modifier", "static_modifier", "abstract_modifier", "final_modifier",
   "readonly_modifier", "var_modifier"]

/-- The types of literals by their kind. -/
def literalTypes : List (String × String) :=
  [("integer", "int"), ("float", "float"), ("string", "string"), ("nowdoc", "string"),
   ("boolean", "bool"), ("null", "null")]

def nameItem (around : Surroundings) (field? : Option String) (range : Range) (s : State) : Item :=
  let text := s.text range
  if around.follows "instanceof" then s.classReference (s.resolveClass text) range
  else if around.isValue field? then s.constantReference text range
  else .name text range

/-- The item of an atom, if the node is one. -/
def atom? (kind : String) (field? : Option String) (range : Range) (around : Surroundings)
    (s : State) : Option Item :=
  let text := s.text range
  if kind ∈ nameKinds then some (nameItem around field? range s)
  else if kind = "variable_name" then
    if around.declares field? then some (.name text range)
    else some (s.variableReference text range)
  else if kind = "primitive_type" ∨ kind = "bottom_type" then
    some (.type (.single (.ofSource text)) range)
  else if kind = "cast_type" then some (.type (.single (.ofSource (castTarget text))) range)
  else if kind = "relative_scope" then some (.type (.single (s.resolveClass text)) range)
  else if kind ∈ modifierKinds then (ModifierWord.parse? text).map Item.modifier
  else if kind = "reference_modifier" then some (.token "&")
  else (literalTypes.lookup kind).map fun type => .value (.single (.ofSource type)) range

end PhpIndex.Extract
