import PhpIndex.Record.Format
import PhpIndex.Symbol.Reference

/-!
# Records of documents

The layouts of references, variable scopes, imports and of the rows that the index keeps for a
document as a whole.
-/
namespace PhpIndex

open Reader in
instance : RecordFormat Reference where
  write r :=
    Write.word Tag.reference ++ Write.word r.kind.code ++ Write.types r.types ++
      Write.location r.location ++ Write.optional Write.types r.scope? ++
      Write.optional Write.range r.scopeRange? ++ Write.optional Write.range r.memberRange? ++
      Write.list Write.range r.arguments
  read := do
    tag Tag.reference
    let code ← word
    match ReferenceKind.ofCode? code with
    | none => fail (.unknownReferenceKind code)
    | some kind =>
      let types ← types
      let location ← location
      let scope? ← optional Reader.types
      let scopeRange? ← optional range
      let memberRange? ← optional range
      let arguments ← list 8 range
      pure ⟨kind, types, location, scope?, scopeRange?, memberRange?, arguments⟩

open Reader in
instance : RecordFormat VariableScope where
  write s :=
    Write.word Tag.variableScope ++ Write.location s.location ++
      Write.map Write.text Write.types s.types
  read := do
    tag Tag.variableScope
    let location ← location
    let bound ← map text types
    pure ⟨location, bound⟩

open Reader in
instance : RecordFormat Imports where
  write t :=
    Write.word Tag.imports ++ Write.texts t.segments ++ Write.map Write.text Write.text t.classes ++
      Write.map Write.text Write.text t.functions ++ Write.map Write.text Write.text t.constants
  read := do
    tag Tag.imports
    let segments ← texts
    let classes ← map text text
    let functions ← map text text
    let constants ← map text text
    pure ⟨segments, classes, functions, constants⟩

/-- What is kept of a document beside its symbols: how fresh the row is, and what names and
variables mean at its top level. -/
structure DocumentRecord where
  uri : String
  modified : Int64
  contentHash : String
  indexedAt : Int64
  imports : Imports
  globals : VariableScope
  deriving DecidableEq

open Reader in
instance : RecordFormat DocumentRecord where
  write d :=
    Write.word Tag.document ++ Write.text d.uri ++ Write.time d.modified ++
      Write.text d.contentHash ++ Write.time d.indexedAt ++ RecordFormat.write d.imports ++
      RecordFormat.write d.globals
  read := do
    tag Tag.document
    let uri ← text
    let modified ← time
    let contentHash ← text
    let indexedAt ← time
    let imports ← RecordFormat.read
    let globals ← RecordFormat.read
    pure ⟨uri, modified, contentHash, indexedAt, imports, globals⟩

/-- Where a completion word leads: the document and the name in its table. -/
structure CompletionEntry where
  uri : String
  name : String
  deriving DecidableEq

open Reader in
instance : RecordFormat CompletionEntry where
  write c := Write.word Tag.completion ++ Write.text c.uri ++ Write.text c.name
  read := do
    tag Tag.completion
    let uri ← text
    let name ← text
    pure ⟨uri, name⟩

end PhpIndex
