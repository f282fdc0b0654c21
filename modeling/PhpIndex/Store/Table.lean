import PhpIndex.Store.Query

/-!
# Tables

Named parts of one store. Every key of a table begins with the name and the version of the table
and a zero byte, so that a new version starts empty.
-/
namespace PhpIndex

/-- Parts of a key with zero bytes between them. -/
def joinKey (parts : List String) : Bytes := [(0 : UInt8)].intercalate (parts.map Bytes.ofText)

structure Table where
  lead : Bytes
  deriving DecidableEq

namespace Table

def named (name : String) (version : UInt32) : Table :=
  ⟨Bytes.ofText (name ++ "@" ++ toString version.toNat) ++ [0]⟩

/-- The key in the store of a key in the table. -/
def key (t : Table) (k : Bytes) : Bytes := t.lead ++ k

def put (t : Table) (k value : Bytes) : Change := .put (t.key k) value

def delete (t : Table) (k : Bytes) : Change := .delete (t.key k)

def deleteAll (t : Table) (lead : Bytes) : Change := .deleteAll (t.key lead)

def get (t : Table) (k : Bytes) : Query (Option Bytes) := .get (t.key k) .done

/-- The rows from `start` on while their keys begin with `lead`, all relative to the table. -/
def scanFrom (t : Table) (start lead : Bytes) : Query (List Row) :=
  .scan (t.key start) (t.key lead) fun rows =>
    .done (rows.map (fun row => (row.1.drop t.lead.length, row.2)))

def scan (t : Table) (lead : Bytes) : Query (List Row) := t.scanFrom lead lead

end Table
end PhpIndex
