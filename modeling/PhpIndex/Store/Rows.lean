import PhpIndex.Bytes
import PhpIndex.OrderedMap

/-!
# Rows

The rows of the store in byte order of their keys, scans of the keys with a common beginning,
and batches of changes that are made together.
-/
namespace PhpIndex

abbrev Row := Bytes × Bytes

abbrev Rows := OrderedMap Bytes Bytes

namespace Rows

/-- Visits the rows from `start` on, in order, up to the first whose key does not begin with
`lead`. -/
def scanFrom (rows : Rows) (start lead : Bytes) : List Row :=
  (rows.startingAt start).takeWhile (fun row => lead.isPrefixOf row.1)

/-- The rows whose key begins with `lead`. -/
def scan (rows : Rows) (lead : Bytes) : List Row := rows.scanFrom lead lead

/-- Removes the rows that a scan of `lead` visits. -/
def eraseAll (rows : Rows) (lead : Bytes) : Rows :=
  let doomed := rows.scan lead
  rows.filter (fun key _ => !doomed.any (fun row => row.1 == key))

end Rows

inductive Change where
  | put (key value : Bytes)
  | delete (key : Bytes)
  | deleteAll (lead : Bytes)
  deriving DecidableEq

/-- Changes that are made together, the first one first. -/
abbrev Batch := List Change

namespace Rows

def make (rows : Rows) : Change → Rows
  | .put key value => rows.insert key value
  | .delete key => rows.erase key
  | .deleteAll lead => rows.eraseAll lead

def apply (rows : Rows) (batch : Batch) : Rows := batch.foldl make rows

end Rows
end PhpIndex
