import PhpIndex.Json.Basic
import PhpIndex.Record.Document
import PhpIndex.Symbol.Table

/-!
# The model in JSON

The forms in which names, symbols, references and records are exchanged with other programs, in
both directions.
-/
namespace PhpIndex

instance [ToJson α] : ToJson (OrderedMap String α) :=
  ⟨fun m => .object (m.entries.map (fun e => (e.1, toJson e.2)))⟩

instance [FromJson α] : FromJson (OrderedMap String α) :=
  ⟨fun j => .ofList (j.members.map (fun e => (e.1, fromJson e.2)))⟩

instance : ToJson Bytes := ⟨fun b => .string b.toHex⟩

instance : FromJson Bytes := ⟨fun j => Bytes.ofHex (fromJson j)⟩

instance : ToJson TypeName :=
  ⟨fun t => .object [("name", toJson t.name), ("fully_qualified", toJson t.absolute)]⟩

instance : FromJson TypeName := ⟨fun j => ⟨j.get "name", j.get "fully_qualified"⟩⟩

instance : ToJson TypeUnion := ⟨fun u => .object [("types", toJson u.types)]⟩

instance : FromJson TypeUnion := ⟨fun j => ⟨j.get "types"⟩⟩

instance : ToJson Range :=
  ⟨fun r => .object [("start", toJson r.start), ("end", toJson r.stop)]⟩

instance : FromJson Range := ⟨fun j => ⟨j.get "start", j.get "end"⟩⟩

instance : ToJson Position :=
  ⟨fun p => .object [("line", toJson p.line), ("character", toJson p.column)]⟩

instance : ToJson Location :=
  ⟨fun l => .object [("uri", toJson l.uri?), ("range", toJson l.range?)]⟩

instance : FromJson Location := ⟨fun j => ⟨j.get "uri", j.get "range"⟩⟩

instance : ToJson Imports where
  toJson t := .object [("namespace", toJson t.segments), ("classes", toJson t.classes),
    ("functions", toJson t.functions), ("constants", toJson t.constants)]

instance : FromJson Imports where
  fromJson j := ⟨j.get "namespace", j.get "classes", j.get "functions", j.get "constants"⟩

instance : ToJson VariableScope where
  toJson s := .object [("location", toJson s.location), ("vars", toJson s.types)]

instance : FromJson VariableScope := ⟨fun j => ⟨j.get "location", j.get "vars"⟩⟩

/-- Flags by name, with bars between them. -/
def flagsText (flags : List (Bool × String)) : String :=
  Text.joinWith " | " ((flags.filter Prod.fst).map Prod.snd)

/-- Whether a name stands among flags with bars between them. -/
def hasFlag (text name : String) : Bool :=
  ((Text.splitAll '|' text).map Text.trimBlank).contains name

instance : ToJson Modifiers where
  toJson m := .string (flagsText [(m.isStatic, "STATIC"), (m.isAbstract, "ABSTRACT"),
    (m.isFinal, "FINAL"), (m.isReadonly, "READONLY")])

instance : FromJson Modifiers where
  fromJson j :=
    let has := hasFlag (fromJson j)
    ⟨has "STATIC", has "ABSTRACT", has "FINAL", has "READONLY"⟩

instance : ToJson Visibility where
  toJson v := .string (flagsText [(v.isPublic, "PUBLIC"), (v.isProtected, "PROTECTED"),
    (v.isPrivate, "PRIVATE")])

instance : FromJson Visibility where
  fromJson j :=
    let has := hasFlag (fromJson j)
    ⟨has "PUBLIC", has "PROTECTED", has "PRIVATE"⟩

namespace ReferenceKind

def name : ReferenceKind → String
  | .function => "Function"
  | .variable => "Variable"
  | .className => "Class"
  | .newOperand => "ClassTypeDesignator"
  | .staticMethod => "Method"
  | .methodCall => "MethodCall"
  | .staticProperty => "Property"
  | .propertyAccess => "PropertyAccess"
  | .classConstant => "ClassConst"
  | .scopedAccess => "ScopedAccess"
  | .constantAccess => "ConstantAccess"
  | .argumentList => "ArgumentList"

end ReferenceKind

instance : ToJson ReferenceKind := ⟨fun k => .string k.name⟩

instance : FromJson ReferenceKind where
  fromJson j := (ReferenceKind.all.find? (fun k => k.name == fromJson j)).getD .function

instance : FromJson ImportKind where
  fromJson j :=
    match j with
    | .string "Function" => .function
    | .string "Constant" => .constant
    | _ => .class

instance : ToJson Reference where
  toJson r := .object [("ref_kind", toJson r.kind), ("ty", toJson r.types),
    ("location", toJson r.location), ("scope", toJson r.scope?),
    ("scope_range", toJson r.scopeRange?), ("member_location", toJson r.memberRange?),
    ("ranges", toJson r.arguments)]

instance : FromJson Reference where
  fromJson j := ⟨j.get "ref_kind", j.get "ty", j.get "location", j.get "scope",
    j.get "scope_range", j.get "member_location", j.get "ranges"⟩

instance : ToJson Parameter where
  toJson p := .object [("name", toJson p.name), ("types", toJson p.types),
    ("default", toJson p.default?), ("by_ref", toJson p.byReference),
    ("variadic", toJson p.variadic), ("location", toJson p.location)]

instance : FromJson Parameter where
  fromJson j := ⟨j.get "name", j.get "types", j.get "default", j.get "by_ref", j.get "variadic",
    j.get "location"⟩

instance : ToJson Signature where
  toJson s := .object [("parameters", toJson s.parameters), ("return_types", toJson s.returnTypes)]

instance : FromJson Signature := ⟨fun j => ⟨j.get "parameters", j.get "return_types"⟩⟩

namespace Symbol

/-- What a symbol holds beside its name, location and description. -/
def details : Symbol → List (String × Json)
  | .classLike c =>
    [("modifiers", toJson c.modifiers), ("extends", toJson c.parents),
     ("implements", toJson c.interfaces), ("traits", toJson c.traits)]
  | .function f => [("signature", toJson f.signature)]
  | .method m =>
    [("scope", toJson m.scope), ("modifiers", toJson m.modifiers),
     ("visibility", toJson m.visibility), ("signature", toJson m.signature)]
  | .property p =>
    [("scope", toJson p.scope), ("modifiers", toJson p.modifiers),
     ("visibility", toJson p.visibility), ("types", toJson p.types)]
  | .constant c => [("value", toJson c.value?), ("types", toJson c.types)]
  | .classConstant c =>
    [("scope", toJson c.scope), ("visibility", toJson c.visibility), ("value", toJson c.value?),
     ("types", toJson c.types)]
  | .variable v => [("types", toJson v.types)]

/-- Only variables have no description. -/
def descriptionField (s : Symbol) : List (String × Json) :=
  match s with
  | .variable _ => []
  | s => [("description", toJson s.description?)]

end Symbol

/-- An object with the kind of the symbol as its one key. -/
instance : ToJson Symbol where
  toJson s := .object [(s.kind.name, .object
    ([("name", toJson s.name), ("location", toJson s.location)] ++ s.details ++
      s.descriptionField))]

namespace ClassDecl

def fromJson (sort : ClassSort) (j : Json) : Symbol :=
  .classLike ⟨sort, j.get "name", j.get "location", j.get "modifiers", j.get "extends",
    j.get "implements", j.get "traits", j.get "description"⟩

end ClassDecl

namespace ConstantDecl

def fromJson (viaDefine : Bool) (j : Json) : Symbol :=
  .constant ⟨viaDefine, j.get "name", j.get "location", j.get "value", j.get "types",
    j.get "description"⟩

end ConstantDecl

namespace Symbol

/-- A symbol of the given kind from what it holds. -/
def ofKind (kind : SymbolKind) (j : Json) : Symbol :=
  match kind with
  | .class => ClassDecl.fromJson .class j
  | .interface => ClassDecl.fromJson .interface j
  | .trait => ClassDecl.fromJson .trait j
  | .function =>
    .function ⟨j.get "name", j.get "location", j.get "signature", j.get "description"⟩
  | .method =>
    .method ⟨j.get "name", j.get "scope", j.get "location", j.get "modifiers",
      j.get "visibility", j.get "signature", j.get "description"⟩
  | .property =>
    .property ⟨j.get "name", j.get "scope", j.get "location", j.get "modifiers",
      j.get "visibility", j.get "types", j.get "description"⟩
  | .constant => ConstantDecl.fromJson false j
  | .defineConstant => ConstantDecl.fromJson true j
  | .classConstant =>
    .classConstant ⟨j.get "name", j.get "scope", j.get "location", j.get "visibility",
      j.get "value", j.get "types", j.get "description"⟩
  | .variable => .variable ⟨j.get "name", j.get "location", j.get "types"⟩

end Symbol

instance : FromJson Symbol where
  fromJson j :=
    match j.members with
    | (kind, value) :: _ => Symbol.ofKind ((SymbolKind.ofName? kind).getD .variable) value
    | [] => Symbol.ofKind .variable .null

instance : ToJson TableKind := ⟨fun k => .string k.name⟩

instance : FromJson TableKind where
  fromJson j := (TableKind.all.find? (fun k => k.name == fromJson j)).getD .classes

instance : ToJson DocumentRecord where
  toJson d := .object [("uri", toJson d.uri), ("mtime", toJson d.modified),
    ("content_hash", toJson d.contentHash), ("indexed_at", toJson d.indexedAt),
    ("imports", toJson d.imports), ("globals", toJson d.globals)]

instance : FromJson DocumentRecord where
  fromJson j := ⟨j.get "uri", j.get "mtime", j.get "content_hash", j.get "indexed_at",
    j.get "imports", j.get "globals"⟩

instance : ToJson CompletionEntry :=
  ⟨fun c => .object [("uri", toJson c.uri), ("name", toJson c.name)]⟩

instance : FromJson CompletionEntry := ⟨fun j => ⟨j.get "uri", j.get "name"⟩⟩

end PhpIndex
