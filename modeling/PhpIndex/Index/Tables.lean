import PhpIndex.Record.Document
import PhpIndex.Record.Symbol
import PhpIndex.Store.Table

/-!
# Tables of documents, declarations and names

What is stored of each indexed document and of its declarations, and the way from names back to
documents.
-/
namespace PhpIndex

/-- One record for each indexed document, under its uri. -/
structure DocumentTable where
  table : Table
  deriving DecidableEq

namespace DocumentTable

def put (x : DocumentTable) (record : DocumentRecord) : Change :=
  x.table.put (Bytes.ofText record.uri) (toRecord record)

def delete (x : DocumentTable) (uri : String) : Change := x.table.delete (Bytes.ofText uri)

def get (x : DocumentTable) (uri : String) : Query (Option DocumentRecord) := do
  match ← x.table.get (Bytes.ofText uri) with
  | none => pure none
  | some bytes =>
    let record ← Query.ofFormat (ofRecord bytes)
    pure (some record)

/-- The indexed documents in key order. -/
def uris (x : DocumentTable) : Query (List String) := do
  let rows ← x.table.scan []
  pure (rows.map (fun row => Bytes.toTextLossy row.1))

end DocumentTable

/-- The declarations of one kind, each under its document and the name it is stored by. -/
structure DeclarationTable where
  table : Table
  deriving DecidableEq

namespace DeclarationTable

def put (x : DeclarationTable) (uri name : String) (s : Symbol) : Change :=
  x.table.put (joinKey [uri, name]) (toRecord s)

/-- Removes all declarations of a document. -/
def deleteAll (x : DeclarationTable) (uri : String) : Change :=
  x.table.deleteAll (joinKey [uri, ""])

def get (x : DeclarationTable) (uri name : String) : Query (Option Symbol) := do
  match ← x.table.get (joinKey [uri, name]) with
  | none => pure none
  | some bytes =>
    let s ← Query.ofFormat (ofRecord bytes)
    pure (some s)

/-- The declarations of a document by their names. -/
def ofDocument (x : DeclarationTable) (uri : String) : Query (List Symbol) := do
  let rows ← x.table.scan (joinKey [uri, ""])
  Query.ofFormat (rows.mapM (fun row => ofRecord row.2))

end DeclarationTable

/-- Which documents declare a name. A row stands under the name, a zero byte and the document, and
holds the document. -/
structure NameIndex where
  table : Table
  deriving DecidableEq

namespace NameIndex

def put (x : NameIndex) (name uri : String) : Change :=
  x.table.put (joinKey [name, uri]) (Bytes.ofText uri)

def delete (x : NameIndex) (name uri : String) : Change := x.table.delete (joinKey [name, uri])

def readText (bytes : Bytes) : Except FormatError String :=
  match Bytes.toText? bytes with
  | some s => .ok s
  | none => .error .invalidUtf8

/-- The documents that declare the name. -/
def find (x : NameIndex) (name : String) : Query (List String) := do
  let rows ← x.table.scan (joinKey [name, ""])
  Query.ofFormat (rows.mapM (fun row => readText row.2))

/-- The name and the document of a key. -/
def readKey (key : Bytes) : Except FormatError (String × String) :=
  match key.dropWhile (· != 0) with
  | [] => .error (.invalidKey .noSeparator)
  | _ :: uri => do
    let name ← readText (key.takeWhile (· != 0))
    let uri ← readText uri
    pure (name, uri)

/-- The names that begin with `lead`, each with a document that declares it. -/
def findFrom (x : NameIndex) (lead : String) : Query (List (String × String)) := do
  let rows ← x.table.scan (Bytes.ofText lead)
  Query.ofFormat (rows.mapM (fun row => readKey row.1))

end NameIndex

end PhpIndex
