import PhpIndex.Bytes
import PhpIndex.Name.TypeUnion
import PhpIndex.Source.Range

/-!
# Writing fields

The bytes of the fields that records are made of. Numbers stand with their most significant
byte first, a text behind its length, a list behind its count, and what may be missing behind
one byte that tells whether it is there.
-/
namespace PhpIndex.Write

def word (n : UInt32) : Bytes := Bytes.ofUInt32 n

def count (n : Nat) : Bytes := word (.ofNat n)

def bool (b : Bool) : Bytes := [if b then 1 else 0]

def time (t : Int64) : Bytes := Bytes.ofUInt64 t.toUInt64

def text (s : String) : Bytes :=
  let bytes := Bytes.ofText s
  count bytes.length ++ bytes

def optional (write : α → Bytes) : Option α → Bytes
  | none => bool false
  | some a => bool true ++ write a

def list (write : α → Bytes) (items : List α) : Bytes :=
  count items.length ++ items.flatMap write

def texts (items : List String) : Bytes := list text items

def typeName (t : Option TypeName) : Bytes := optional text (t.map TypeName.toStored)

def types (u : TypeUnion) : Bytes := list (fun t => typeName (some t)) u.types

def range (r : Range) : Bytes := word r.start ++ word r.stop

/-- A location without document or range is written as missing. -/
def location (l : Location) : Bytes :=
  match l.uri?, l.range? with
  | some uri, some r => bool true ++ text uri ++ range r
  | _, _ => bool false

/-- The entries of a map in key order. -/
def map [Ord κ] (writeKey : κ → Bytes) (writeValue : ν → Bytes) (m : OrderedMap κ ν) : Bytes :=
  list (fun e => writeKey e.1 ++ writeValue e.2) m.entries

end PhpIndex.Write
