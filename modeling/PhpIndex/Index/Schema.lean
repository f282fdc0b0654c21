import PhpIndex.Index.Completions
import PhpIndex.Index.Ranges
import PhpIndex.Index.Tables

/-!
# Schema of the index

The tables of the index: for each kind of declaration a table of the declarations, their names
and their words, and for all documents the references, the variable scopes and the records.
-/
namespace PhpIndex

/-- What is kept for one kind of declaration. -/
structure KindTables where
  declarations : DeclarationTable
  names : NameIndex
  words : CompletionIndex
  deriving DecidableEq

/-- The version of all tables. -/
def schemaVersion : UInt32 := 1

namespace KindTables

def of (kind : TableKind) : KindTables where
  declarations := ⟨.named kind.name schemaVersion⟩
  names := ⟨.named (kind.name ++ "_name") schemaVersion⟩
  words := ⟨.named (kind.name ++ "_completion") schemaVersion⟩

/-- Enters a symbol of a document. -/
def put (t : KindTables) (uri : String) (s : Symbol) : Batch :=
  let name := s.indexName
  [t.declarations.put uri name s, t.names.put name uri] ++
    t.words.put (s.scope?.getD "") s.completionWord uri name

/-- Removes what leads to a symbol of a document. -/
def delete (t : KindTables) (uri : String) (s : Symbol) : Batch :=
  let name := s.indexName
  t.names.delete name uri :: t.words.delete (s.scope?.getD "") s.completionWord uri name

/-- Removes all symbols of a document, given those that the table holds. -/
def deleteAll (t : KindTables) (uri : String) (old : List Symbol) : Batch :=
  old.flatMap (t.delete uri) ++ [t.declarations.deleteAll uri]

end KindTables

def referenceTable : RangeIndex Reference := ⟨.named "reference" schemaVersion⟩

def scopeTable : RangeIndex VariableScope := ⟨.named "scope_var" schemaVersion⟩

def documentTable : DocumentTable := ⟨.named "document" schemaVersion⟩

end PhpIndex
