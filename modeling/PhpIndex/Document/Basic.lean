import PhpIndex.Extract.Walk
import PhpIndex.Lookup.Context
import PhpIndex.Symbol.Table
import PhpIndex.Text.Sha256

/-!
# Documents

A document of which the text and everything extracted from it are at hand.
-/
namespace PhpIndex

structure Document extends Extraction where
  uri : String
  text : String
  /-- Seconds since the epoch. -/
  modified : Int64
  deriving DecidableEq

namespace Document

def ofTree (uri text : String) (modified : Int64) (tree : SyntaxTree) : Document :=
  { toExtraction := .ofTree uri text tree, uri, text, modified }

/-- The fingerprint of a text, by which it is told whether the text has changed. -/
def hashOf (text : String) : String := Bytes.toHex (Sha256.digest (Bytes.ofText text))

def contentHash (d : Document) : String := hashOf d.text

def symbolsOfKind (d : Document) (kind : TableKind) : List Symbol :=
  d.symbols.filter (fun s => s.table? = some kind)

/-- The declarations by where they start. -/
def symbolsInSourceOrder (d : Document) : List Symbol := d.symbols.mergeSort Symbol.inSourceOrder

/-- Least for a reference with the smallest end, and of those for the one with the latest
start. -/
def innerness (r : Reference) : Nat :=
  let range := r.range?.getD default
  range.stop.toNat * UInt32.size + (UInt32.size - 1 - range.start.toNat)

/-- The innermost accepted reference that contains the offset. -/
def innermost (d : Document) (offset : UInt32) (accept : Reference → Bool) : Option Reference :=
  leastBy innerness (d.references.filter (fun r => r.location.contains offset && accept r))

def referenceAt (d : Document) (offset : UInt32) : Option Reference :=
  d.innermost offset (fun _ => true)

/-- The innermost argument list that contains the offset. -/
def callAt (d : Document) (offset : UInt32) : Option Reference :=
  d.innermost offset (fun r => r.kind == .argumentList)

def context (d : Document) : DocumentContext := ⟨d.uri, d.imports, d.globals, d.scopes⟩

def record (d : Document) (indexedAt : Int64) : DocumentRecord :=
  { uri := d.uri
    modified := d.modified
    contentHash := d.contentHash
    indexedAt
    imports := d.imports
    globals := d.globals }

end Document
end PhpIndex
