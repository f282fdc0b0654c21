import PhpIndex.Index.Schema
import PhpIndex.Store.Basic

/-!
# The index

What the index holds of each document, and how a document is replaced or removed: the old rows
are read, and their removal and all new rows make one batch, so that at any time the store holds
one version of the document whole.
-/
namespace PhpIndex

/-- Where symbols are looked up: an index, or an index behind open documents. No more names than
`classBound` have a class declaration. -/
structure SymbolSource where
  classBound : Nat
  find : TableKind → String → Except StoreError (List Symbol)
  membersOf : TableKind → String → Except StoreError (List Symbol)
  search : TableKind → String → String → Nat → Except StoreError (List Symbol)

namespace Index

/-- The symbols of one kind that a document declares. -/
def symbolsOfKind (uri : String) (kind : TableKind) : Query (List Symbol) :=
  (KindTables.of kind).declarations.ofDocument uri

/-- The symbols that a document declares, kind by kind. -/
def symbolsOf (uri : String) : Query (List Symbol) := do
  let groups ← Query.forEach (symbolsOfKind uri) TableKind.all
  pure groups.flatten

/-- The changes that remove all rows of a document. -/
def removal (uri : String) : Query Batch := do
  let batches ← Query.forEach (fun kind => do
    let old ← symbolsOfKind uri kind
    pure ((KindTables.of kind).deleteAll uri old)) TableKind.all
  pure (batches.flatten ++
    [referenceTable.deleteAll uri, scopeTable.deleteAll uri, documentTable.delete uri])

/-- The changes that enter symbols; variables are not stored. -/
def symbolChanges (uri : String) (symbols : List Symbol) : Batch :=
  symbols.flatMap fun s =>
    match s.table? with
    | some kind => (KindTables.of kind).put uri s
    | none => []

/-- The changes that enter references, numbered; those without a full location are left out. -/
def referenceChanges (uri : String) (references : List Reference) : Batch :=
  let located := references.filterMap fun r =>
    if r.location.isEmpty then none else r.range?.map (fun range => (range, r))
  located.mapIdx (fun i p => referenceTable.put uri p.1 (.ofNat i) p.2)

/-- The changes that enter variable scopes. Scopes without a range count but are left out. -/
def scopeChanges (uri : String) (scopes : List VariableScope) : Batch :=
  (scopes.mapIdx (fun i s => (i, s))).filterMap fun (i, s) =>
    s.range?.map (fun range => scopeTable.put uri range (.ofNat i) s)

/-- The changes that put this version of a document in place of any other. -/
def replacement (record : DocumentRecord) (symbols : List Symbol) (references : List Reference)
    (scopes : List VariableScope) : Query Batch := do
  let removed ← removal record.uri
  pure (removed ++ symbolChanges record.uri symbols ++ referenceChanges record.uri references ++
    scopeChanges record.uri scopes ++ [documentTable.put record])

def document (uri : String) : Query (Option DocumentRecord) := documentTable.get uri

def uris : Query (List String) := documentTable.uris

/-- The innermost reference at an offset. -/
def referenceAt (uri : String) (offset : UInt32) : Query (Option Reference) :=
  referenceTable.findAt uri offset

/-- The innermost argument list at an offset. -/
def callAt (uri : String) (offset : UInt32) : Query (Option Reference) :=
  referenceTable.findWhere uri offset (fun r => r.kind == .argumentList)

def referencesOf (uri : String) : Query (List Reference) := referenceTable.ofDocument uri

def scopesOf (uri : String) : Query (List VariableScope) := scopeTable.ofDocument uri

/-- The declarations of a document in source order. -/
def documentSymbols (uri : String) : Query (List Symbol) := do
  let symbols ← symbolsOf uri
  pure (symbols.mergeSort Symbol.inSourceOrder)

/-- The symbols stored under a name. -/
def find (kind : TableKind) (name : String) : Query (List Symbol) := do
  let tables := KindTables.of kind
  let uris ← tables.names.find name
  let found ← Query.forEach (fun uri => tables.declarations.get uri name) uris
  pure (Symbol.candidates (found.filterMap id))

/-- The members of a class. -/
def membersOf (kind : TableKind) (owner : String) : Query (List Symbol) := do
  let tables := KindTables.of kind
  let names ← tables.names.findFrom (memberKey owner "")
  let found ← Query.forEach (fun (name, uri) => tables.declarations.get uri name) names
  pure (Symbol.candidates (found.filterMap id))

/-- Up to `limit` symbols of a class (or of none) with a word that begins with the keyword. -/
def search (kind : TableKind) (scope keyword : String) (limit : Nat) : Query (List Symbol) := do
  let tables := KindTables.of kind
  let entries ← tables.words.search scope keyword limit
  let found ← Query.forEach (fun e => tables.declarations.get e.uri e.name) entries
  pure (Symbol.candidates (found.filterMap id))

/-- The index as a source of symbols. A name with a declaration is part of a key, and ends there
at a zero byte. -/
def source (rows : Rows) : SymbolSource where
  classBound := rows.keys.flatten.length
  find kind name := (find kind name).run rows
  membersOf kind owner := (membersOf kind owner).run rows
  search kind scope keyword limit := (search kind scope keyword limit).run rows

end Index

namespace Store

/-- Replaces everything stored for a document. After an error nothing has changed. -/
def replaceDocument (s : Store) (record : DocumentRecord) (symbols : List Symbol)
    (references : List Reference) (scopes : List VariableScope) : Except StoreError Store := do
  let batch ← (Index.replacement record symbols references scopes).run s.rows
  pure (s.apply batch)

/-- Removes everything stored for a document, and answers whether it was indexed. -/
def removeDocument (s : Store) (uri : String) : Except StoreError (Store × Bool) := do
  let record? ← (Index.document uri).run s.rows
  let batch ← (Index.removal uri).run s.rows
  pure (s.apply batch, record?.isSome)

end Store
end PhpIndex
