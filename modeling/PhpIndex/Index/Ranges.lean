import PhpIndex.Record.Format
import PhpIndex.Record.Key
import PhpIndex.Store.Table

/-!
# Range index

Records by the source range that they cover. The key is the tuple of document, end, negated
start and a number that keeps records of one range apart. From the key of a document and an
offset on, the ranges that end at or behind the offset follow by their ends, of equal ends the
inner range first; the first of them that also starts at or before the offset is the innermost
range that contains it.
-/
namespace PhpIndex

structure RangeIndex (α : Type) where
  table : Table
  deriving DecidableEq

namespace RangeIndex
variable {α : Type} [RecordFormat α]

/-- Offsets as far as keys hold them. -/
def keyInt (n : UInt32) : Int32 := if n < 0x80000000 then n.toInt32 else 0x7FFFFFFF

def key (uri : String) (range : Range) (number : UInt32) : Bytes :=
  Key.ofText uri ++ Key.ofInt (keyInt range.stop) ++ Key.ofInt (-keyInt range.start) ++
    Key.ofInt (keyInt number)

def put (x : RangeIndex α) (uri : String) (range : Range) (number : UInt32) (record : α) :
    Change :=
  x.table.put (key uri range number) (toRecord record)

/-- Removes all records of a document. -/
def deleteAll (x : RangeIndex α) (uri : String) : Change := x.table.deleteAll (Key.ofText uri)

/-- The start of a range, from the part of its key behind the document. -/
def readStart (tail : Bytes) : Except FormatError UInt32 :=
  match Key.readInt tail with
  | (.error e, _) => .error e
  | (.ok _, tail) =>
    match Key.readInt tail with
    | (.error e, _) => .error e
    | (.ok negated, _) => .ok (.ofNat negated.toInt.natAbs)

/-- The first accepted record of the rows whose range has started at the offset. The keys of
the rows hold `skip` bytes in front of their ends. -/
def firstAt (skip : Nat) (offset : UInt32) (accept : α → Bool) :
    List Row → Except FormatError (Option α)
  | [] => .ok none
  | row :: rest =>
    match readStart (row.1.drop skip) with
    | .error e => .error e
    | .ok start =>
      if offset < start then firstAt skip offset accept rest
      else
        match ofRecord row.2 with
        | .error e => .error e
        | .ok record =>
          if accept record then .ok (some record) else firstAt skip offset accept rest

/-- The innermost accepted record whose range contains the offset. -/
def findWhere (x : RangeIndex α) (uri : String) (offset : UInt32) (accept : α → Bool) :
    Query (Option α) := do
  let lead := Key.ofText uri
  let rows ← x.table.scanFrom (lead ++ Key.ofInt (keyInt offset)) lead
  Query.ofFormat (firstAt lead.length offset accept rows)

def findAt (x : RangeIndex α) (uri : String) (offset : UInt32) : Query (Option α) :=
  x.findWhere uri offset (fun _ => true)

/-- All records of a document, by the ends of their ranges. -/
def ofDocument (x : RangeIndex α) (uri : String) : Query (List α) := do
  let rows ← x.table.scan (Key.ofText uri)
  Query.ofFormat (rows.mapM (fun row => ofRecord row.2))

end RangeIndex
end PhpIndex
