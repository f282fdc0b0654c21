import PhpIndex.Bytes
import PhpIndex.Record.Error

/-!
# Ordered keys

Keys made of a text and numbers whose bytes compare as the tuples do. A zero byte of the text is
followed by 255 and the text is closed by zero and one; a number stands with its most
significant byte first and its sign flipped.
-/
namespace PhpIndex.Key

/-- The bytes of a text with every zero byte escaped. -/
def escape : Bytes → Bytes
  | [] => []
  | b :: rest => if b = 0 then 0 :: 255 :: escape rest else b :: escape rest

def ofText (s : String) : Bytes := escape (Bytes.ofText s) ++ [0, 1]

def ofInt (n : Int32) : Bytes := Bytes.ofUInt32 (n.toUInt32 ^^^ 0x80000000)

def ofTuple (name : String) (a b : Int32) : Bytes := ofText name ++ ofInt a ++ ofInt b

/-- Undoes the escapes up to the end of the text. Answers also what is left, after a failure
from behind the fault. -/
def unescape : Bytes → Except KeyFault Bytes × Bytes
  | [] => (.error .unterminatedString, [])
  | b :: rest =>
    if b ≠ 0 then
      let (text, left) := unescape rest
      (text.map (b :: ·), left)
    else
      match rest with
      | [] => (.error .danglingEscape, [])
      | marker :: rest =>
        if marker = 255 then
          let (text, left) := unescape rest
          (text.map (0 :: ·), left)
        else if marker = 1 then (.ok [], rest)
        else (.error .badEscape, rest)

def readText (key : Bytes) : Except FormatError String × Bytes :=
  match unescape key with
  | (.error fault, left) => (.error (.invalidKey fault), left)
  | (.ok bytes, left) =>
    match Bytes.toText? bytes with
    | some s => (.ok s, left)
    | none => (.error .invalidUtf8, left)

def readInt (key : Bytes) : Except FormatError Int32 × Bytes :=
  match key with
  | a :: b :: c :: d :: left =>
    (.ok (Bytes.toUInt32 a b c d ^^^ 0x80000000).toInt32, left)
  | short => (.error (.invalidKey .truncatedInteger), short)

/-- Reads a whole key of a text and two numbers. -/
def toTuple? (key : Bytes) : Except FormatError (String × Int32 × Int32) := do
  let (name, left) := readText key
  let name ← name
  let (a, left) := readInt left
  let a ← a
  let (b, left) := readInt left
  let b ← b
  if left.isEmpty then pure (name, a, b) else throw (.invalidKey .trailingBytes)

end PhpIndex.Key
