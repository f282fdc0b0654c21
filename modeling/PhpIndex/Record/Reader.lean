import PhpIndex.Bytes
import PhpIndex.Name.TypeUnion
import PhpIndex.Record.Error
import PhpIndex.Source.Range

/-!
# Reading fields

A reader takes bytes from the front and answers a value or an error, and in both cases what is
left: a text that fails to be read has used up its length already. Every read of a list first
asks whether the bytes left can hold that many items at all.
-/
namespace PhpIndex

/-- What was read, or why not, and the bytes left. -/
def Reader (α : Type) : Type := Bytes → Except FormatError α × Bytes

namespace Reader

def run (r : Reader α) (input : Bytes) : Except FormatError α × Bytes := r input

instance : Monad Reader where
  pure a := fun input => (.ok a, input)
  bind r next := fun input =>
    match r input with
    | (.ok a, rest) => next a rest
    | (.error e, rest) => (.error e, rest)

@[simp] theorem run_pure (a : α) (input : Bytes) :
    (pure a : Reader α).run input = (.ok a, input) := rfl

theorem run_bind_ok {r : Reader α} {next : α → Reader β} {a : α} {input rest : Bytes}
    (h : r.run input = (.ok a, rest)) : (r >>= next).run input = (next a).run rest := by
  unfold run at *
  simp only [bind, h]

theorem run_bind_error {r : Reader α} {next : α → Reader β} {e : FormatError}
    {input rest : Bytes} (h : r.run input = (.error e, rest)) :
    (r >>= next).run input = (.error e, rest) := by
  unfold run at *
  simp only [bind, h]

def fail (e : FormatError) : Reader α := fun input => (.error e, input)

def remaining : Reader Nat := fun input => (.ok input.length, input)

def take (n : Nat) : Reader Bytes := fun input =>
  if input.length < n then (.error (.unexpectedEnd n input.length), input)
  else (.ok (input.take n), input.drop n)

/-- Asks for the end of the record. -/
def finish : Reader Unit := do
  match ← remaining with
  | 0 => pure ()
  | n => fail (.trailingBytes n)

def word : Reader UInt32 := do
  match ← take 4 with
  | [a, b, c, d] => pure (Bytes.toUInt32 a b c d)
  | _ => pure 0

def time : Reader Int64 := do
  match ← take 8 with
  | [a, b, c, d, e, f, g, h] =>
    pure (Bytes.toUInt64 (Bytes.toUInt32 a b c d) (Bytes.toUInt32 e f g h)).toInt64
  | _ => pure 0

def bool : Reader Bool := do
  match ← take 1 with
  | [0] => pure false
  | [1] => pure true
  | other => fail (.invalidBool (other.headD 0))

def text : Reader String := do
  let length ← word
  let bytes ← take length.toNat
  match Bytes.toText? bytes with
  | some s => pure s
  | none => fail .invalidUtf8

def optional (read : Reader α) : Reader (Option α) := do
  if ← bool then
    let a ← read
    pure (some a)
  else pure none

/-- The count of items of at least `least` bytes each. -/
def count (least : Nat) : Reader Nat := do
  let n ← word
  let needed := n.toNat * least
  let left ← remaining
  if left < needed then fail (.unexpectedEnd needed left) else pure n.toNat

/-- Reads one item after the other. -/
def many (read : Reader α) : Nat → Reader (List α)
  | 0 => pure []
  | n + 1 => do
    let a ← read
    let rest ← many read n
    pure (a :: rest)

def list (least : Nat) (read : Reader α) : Reader (List α) := do
  let n ← count least
  many read n

def texts : Reader (List String) := list 4 text

def typeName : Reader (Option TypeName) := do
  let stored ← optional text
  pure (stored.map TypeName.ofStored)

/-- Alternatives written as missing, and repeats of a name, are left out. -/
def types : Reader TypeUnion := do
  let names ← list 1 typeName
  pure (TypeUnion.ofList (names.filterMap id))

def range : Reader Range := do
  let start ← word
  let stop ← word
  pure ⟨start, stop⟩

def location : Reader Location := do
  if ← bool then
    let uri ← text
    let r ← range
    pure (.of uri r)
  else pure .empty

/-- Of entries with one key the last is kept. -/
def map [Ord κ] [Std.TransOrd κ] (readKey : Reader κ) (readValue : Reader ν) :
    Reader (OrderedMap κ ν) := do
  let entries ← list 8 do
    let k ← readKey
    let v ← readValue
    pure (k, v)
  pure (OrderedMap.ofList entries)

end Reader
end PhpIndex
