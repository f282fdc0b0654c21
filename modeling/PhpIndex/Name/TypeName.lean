import PhpIndex.Name.Imports

/-!
# Type names

One name in a type: a built-in type, a class by its absolute name, or a name still to be
resolved. An absolute name is kept without its leading separator and marked as such; built-in
types are absolute wherever they stand.
-/
namespace PhpIndex

/-- The built-in types, which live in no namespace. -/
def builtinTypes : List String :=
  ["int", "float", "string", "bool", "array", "callable", "iterable", "object", "mixed", "void",
   "null", "never", "false", "true", "self", "static", "parent", "resource"]

/-- The canonical spelling of a built-in type, from any case and the long spellings. -/
def canonicalBuiltin? (name : String) : Option String :=
  let lowered := Text.lowerAscii name
  let canonical :=
    if lowered = "boolean" then "bool"
    else if lowered = "integer" then "int"
    else if lowered = "double" ∨ lowered = "real" then "float"
    else lowered
  if canonical ∈ builtinTypes then some canonical else none

structure TypeName where
  name : String
  absolute : Bool
  deriving DecidableEq

namespace TypeName

/-- A name known to be absolute. -/
def ofAbsolute (name : String) : TypeName :=
  let name := Imports.trimLead name
  ⟨(canonicalBuiltin? name).getD name, true⟩

/-- A name as spelled in source: a leading separator makes it absolute. -/
def ofSource (raw : String) : TypeName :=
  let raw := Text.trimBlank raw
  match Text.afterLead? "\\" raw with
  | some rest => ofAbsolute rest
  | none =>
    match canonicalBuiltin? raw with
    | some builtin => ⟨builtin, true⟩
    | none => ⟨raw, false⟩

/-- Names of members and variables, which have one spelling only. -/
def verbatim (name : String) : TypeName := ⟨name, false⟩

def isVariable (t : TypeName) : Bool := Text.startsWith "$" t.name

def isBuiltin (t : TypeName) : Bool := (canonicalBuiltin? t.name).isSome

/-- The last segment. -/
def shortName (t : TypeName) : String := Text.afterLast '\\' t.name

/-- Makes the name absolute. Absolute names and variables stand as they are. -/
def resolveAs (t : TypeName) (imports : Imports) (kind : ImportKind) : TypeName :=
  if t.absolute || t.isVariable then t else ⟨imports.absoluteName t.name kind, true⟩

def resolve (t : TypeName) (imports : Imports) : TypeName := t.resolveAs imports .class

/-- The text under which a record keeps the name: absolute class names get their leading
separator back, so that they are told from unresolved ones. -/
def toStored (t : TypeName) : String :=
  if t.absolute && !t.isBuiltin then "\\" ++ t.name else t.name

def ofStored (stored : String) : TypeName :=
  match Text.afterLead? "\\" stored with
  | some rest => ⟨rest, true⟩
  | none => ⟨stored, decide (stored ∈ builtinTypes)⟩

end TypeName
end PhpIndex
