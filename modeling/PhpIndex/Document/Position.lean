import PhpIndex.Document.Basic

/-!
# Positions

Byte offsets of a text as lines and columns, and back. Lines end at line feeds, and columns count
UTF-16 code units.
-/
namespace PhpIndex

namespace Position

def units (c : Char) : Nat := if c.toNat < 0x10000 then 1 else 2

/-- The position behind a character. -/
def after (line column : Nat) (c : Char) : Nat × Nat :=
  if c = '\n' then (line + 1, 0) else (line, column + units c)

/-- The line and column reached by the characters that end within so many bytes. -/
def reached (line column bytes : Nat) : List Char → Nat × Nat
  | [] => (line, column)
  | c :: rest =>
    if c.utf8Size ≤ bytes then
      let (line, column) := after line column c
      reached line column (bytes - c.utf8Size) rest
    else (line, column)

/-- The position of an offset. Within a character it is that of the character, behind the text
that of its end. -/
def ofOffset (text : String) (offset : UInt32) : Position :=
  let (line, column) := reached 0 0 offset.toNat text.toList
  ⟨.ofNat line, .ofNat column⟩

/-- The number of bytes in front of the first character of a line that stands at the column or
behind it, or of the end of the line. -/
def bytesBefore (column : Nat) : List Char → Nat
  | [] => 0
  | c :: rest => if column = 0 then 0 else c.utf8Size + bytesBefore (column - units c) rest

def byteLength : List Char → Nat
  | [] => 0
  | c :: rest => c.utf8Size + byteLength rest

/-- A line without the carriage returns at its end. -/
def content (line : List Char) : List Char := (line.reverse.dropWhile (· == '\r')).reverse

/-- The offset in the lines of a text, of which the first begins at `start`; none for a line
that the text does not have. -/
def find (column start : Nat) : Nat → List (List Char) → Option Nat
  | _, [] => none
  | 0, line :: _ => some (start + bytesBefore column (content line))
  | n + 1, line :: rest => find column (start + byteLength line + 1) n rest

/-- The offset of a position. Columns behind the content of a line stand for its end, and lines
behind the last one for the end of the text. -/
def toOffset (text : String) (p : Position) : UInt32 :=
  let lines := Chars.splitAll '\n' text.toList
  .ofNat ((find p.column.toNat 0 p.line.toNat lines).getD text.utf8ByteSize)

end Position
end PhpIndex
