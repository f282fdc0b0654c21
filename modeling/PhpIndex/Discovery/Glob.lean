import PhpIndex.Bytes

/-!
# Globs

Patterns for paths, as they are used in ignore files. A pattern is matched byte by byte: it
consumes a part from the front of the path, and all rests that may be left over are followed at
once.
-/
namespace PhpIndex

inductive Glob where
  /-- Nothing at all. -/
  | empty
  /-- Any text. -/
  | all
  /-- One byte within some ranges, or outside of all of them. -/
  | byte (outside : Bool) (ranges : List (UInt8 × UInt8))
  /-- Any text without a separator. -/
  | many
  /-- Any directories in front, or none. -/
  | leading
  /-- A separator and everything behind it. -/
  | trailing
  /-- A separator with any directories behind it. -/
  | between
  | seq (first second : Glob)
  | either (one other : Glob)
  deriving DecidableEq

namespace Glob

def separator : UInt8 := 0x2F

/-- One byte as it is. -/
def literal (b : UInt8) : Glob := .byte false [(b, b)]

/-- One byte that is no separator. -/
def any : Glob := .byte true [(separator, separator)]

def inRanges (ranges : List (UInt8 × UInt8)) (b : UInt8) : Bool :=
  ranges.any (fun r => r.1 ≤ b && b ≤ r.2)

/-- What follows any number of bytes in front. -/
def suffixes : Bytes → List Bytes
  | [] => [[]]
  | b :: rest => (b :: rest) :: suffixes rest

/-- What follows any number of bytes in front that are no separators. -/
def suffixesInName : Bytes → List Bytes
  | [] => [[]]
  | b :: rest =>
    if b = separator then [b :: rest] else (b :: rest) :: suffixesInName rest

/-- What follows a separator, for every separator. -/
def afterSeparators : Bytes → List Bytes
  | [] => []
  | b :: rest => if b = separator then rest :: afterSeparators rest else afterSeparators rest

/-- What may be left of a text when the pattern has consumed a part from its front. -/
def rests : Glob → Bytes → List Bytes
  | .empty, s => [s]
  | .all, s => suffixes s
  | .byte _ _, [] => []
  | .byte outside ranges, b :: rest => if inRanges ranges b != outside then [rest] else []
  | .many, s => suffixesInName s
  | .leading, s => s :: afterSeparators s
  | .trailing, [] => []
  | .trailing, b :: rest => if b = separator then suffixes rest else []
  | .between, [] => []
  | .between, b :: rest => if b = separator then rest :: afterSeparators rest else []
  | .seq first second, s => ((rests first s).eraseDups).flatMap (rests second)
  | .either one other, s => rests one s ++ rests other s

/-- Whether the pattern matches the whole text. -/
def matchesPath (g : Glob) (path : String) : Bool :=
  (g.rests (Bytes.ofText path)).any List.isEmpty

/-- The patterns one after the other, without those that match nothing but the empty text. -/
def sequence (parts : List Glob) : Glob :=
  match parts.filter (· ≠ .empty) with
  | [] => .empty
  | first :: rest => rest.foldl .seq first

/-- One of the patterns; empty ones are no choice. -/
def choice (branches : List Glob) : Glob :=
  match branches.filter (· ≠ .empty) with
  | [] => .empty
  | first :: rest => rest.foldl .either first

end Glob
end PhpIndex
