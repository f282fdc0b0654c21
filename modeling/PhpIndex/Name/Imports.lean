import PhpIndex.OrderedMap
import PhpIndex.Text.Cut

/-!
# Namespaces and imports

The namespace of a document and the names that its `use` statements bring in. Classes, functions
and constants are imported apart, and a name is resolved by the language's rules: an absolute
name stands for itself, the first segment of a qualified name may be a class alias, and what no
alias covers lies in the namespace.
-/
namespace PhpIndex

inductive ImportKind where
  | «class»
  | function
  | constant
  deriving DecidableEq, Repr

/-- From the alias to the absolute name that it stands for. -/
abbrev Aliases := OrderedMap String String

structure Imports where
  segments : List String
  classes : Aliases
  functions : Aliases
  constants : Aliases
  deriving DecidableEq

namespace Imports

def empty : Imports := ⟨[], .empty, .empty, .empty⟩

instance : Inhabited Imports := ⟨empty⟩

/-- An absolute name without the separators in front. -/
def trimLead (name : String) : String := Text.trimStart (· == '\\') name

/-- The empty name stands for the global namespace. -/
def setNamespace (t : Imports) (name : String) : Imports :=
  let parts := Text.splitAll '\\' (Text.trimBoth (· == '\\') name)
  { t with segments := parts.filter (fun p => !p.isEmpty) }

def namespaceName (t : Imports) : String := Text.joinWith "\\" t.segments

def aliases (t : Imports) : ImportKind → Aliases
  | .class => t.classes
  | .function => t.functions
  | .constant => t.constants

def withAlias (t : Imports) (kind : ImportKind) (alias_ target : String) : Imports :=
  match kind with
  | .class => { t with classes := t.classes.insert alias_ target }
  | .function => { t with functions := t.functions.insert alias_ target }
  | .constant => { t with constants := t.constants.insert alias_ target }

/-- Registers an import. Without an alias the last segment of the name serves as one; an import
of nothing, or under no name, is not registered. -/
def addImport (t : Imports) (kind : ImportKind) (name : String) (alias? : Option String) :
    Imports :=
  let target := trimLead name
  let known := alias?.getD (Text.afterLast '\\' target)
  if known.isEmpty || target.isEmpty then t else t.withAlias kind known target

/-- The absolute name of something declared here under the given name. -/
def namespaced (t : Imports) (name : String) : String :=
  let name := trimLead name
  if t.segments.isEmpty then name else t.namespaceName ++ "\\" ++ name

/-- The absolute name that a name stands for where it is written. -/
def absoluteName (t : Imports) (name : String) (kind : ImportKind) : String :=
  match Text.afterLead? "\\" name, Text.afterLead? "namespace\\" name with
  | some absolute, _ => absolute
  | none, some relative => t.namespaced relative
  | none, none =>
    match Text.splitFirst '\\' name with
    | some (first, rest) =>
      match t.classes.get? first with
      | some target => target ++ "\\" ++ rest
      | none => t.namespaced name
    | none =>
      match (t.aliases kind).get? name with
      | some target => target
      | none => t.namespaced name

/-- The part of an absolute name below the given one. -/
def below? (target name : String) : Option String :=
  (Text.afterLead? target name).bind (Text.afterLead? "\\")

/-- A short spelling of an absolute name: an alias for it, else a class alias for what it lies
below, else relative to the namespace, else absolute. -/
def shortName (t : Imports) (name : String) (kind : ImportKind) : String :=
  let name := trimLead name
  match (t.aliases kind).entries.find? (fun e => e.2 == name) with
  | some (known, _) => known
  | none =>
    let viaClass := t.classes.entries.findSome? fun e =>
      (below? e.2 name).map (fun rest => e.1 ++ "\\" ++ rest)
    match viaClass with
    | some short => short
    | none =>
      if t.segments.isEmpty then name
      else
        match Text.afterLead? (t.namespaceName ++ "\\") name with
        | some relative => relative
        | none => "\\" ++ name

end Imports
end PhpIndex
