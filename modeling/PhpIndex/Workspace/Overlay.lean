import PhpIndex.Document.Basic
import PhpIndex.Index.Basic

/-!
# Open documents

Documents that are open in an editor. They are kept as they are there and are not stored: a
search takes the stored symbols of all other documents, and of these the ones in the buffers.
-/
namespace PhpIndex

/-- Open documents by their uris. -/
abbrev OpenDocuments := OrderedMap String Document

namespace OpenDocuments

/-- The symbols of one kind in all open documents that pass the test. -/
def symbols (o : OpenDocuments) (kind : TableKind) (keep : Symbol → Bool) : List Symbol :=
  o.entries.flatMap fun e => (e.2.symbolsOfKind kind).filter keep

/-- How many symbols of one kind are stored for documents that are open. -/
def shadowed (o : OpenDocuments) (rows : Rows) (kind : TableKind) : Except StoreError Nat := do
  let stored ← (Query.forEach (fun uri => Index.symbolsOfKind uri kind) o.keys).run rows
  pure stored.flatten.length

/-- Stored symbols of documents that are not open, and symbols of the open ones. -/
def merge (o : OpenDocuments) (stored opened : List Symbol) : List Symbol :=
  Symbol.candidates (stored.filter (fun s => !o.contains s.location.uri) ++ opened)

/-- Whether a word of a symbol begins with a keyword in lower case. -/
def hasWord (keyword : String) (s : Symbol) : Bool :=
  (Words.indexed s.completionWord).any (fun word => Text.startsWith keyword word)

/-- The search asks the store for as many more symbols as open documents may hide. -/
def search (o : OpenDocuments) (rows : Rows) (kind : TableKind) (scope keyword : String)
    (limit : Nat) : Except StoreError (List Symbol) := do
  let keyword := Text.lower keyword
  let opened := o.symbols kind fun s => s.scope?.getD "" == scope && hasWord keyword s
  let hidden ← o.shadowed rows kind
  let stored ← (Index.search kind scope keyword (limit + hidden)).run rows
  pure ((o.merge stored opened).take limit)

/-- The stored symbols with the open documents in front of them. -/
def source (o : OpenDocuments) (rows : Rows) : SymbolSource :=
  let stored := Index.source rows
  if o.isEmpty then stored
  else
    { classBound := stored.classBound + (o.entries.flatMap (fun e => e.2.symbols)).length
      find := fun kind name => do
        let found ← stored.find kind name
        pure (o.merge found (o.symbols kind (fun s => s.indexName == name)))
      membersOf := fun kind owner => do
        let found ← stored.membersOf kind owner
        pure (o.merge found (o.symbols kind (fun s => s.scope? == some owner)))
      search := o.search rows }

end OpenDocuments
end PhpIndex
