import PhpIndex.Record.Reader
import PhpIndex.Record.Writer
import PhpIndex.Symbol.Basic

/-!
# Record formats

The layout of everything that the index stores. A record that stands alone begins with a tag
that names its kind, so that a row of the wrong kind is refused and not misread.
-/
namespace PhpIndex

/-- How values of a type are written and read back. -/
class RecordFormat (α : Type) where
  write : α → Bytes
  read : Reader α

/-- The bytes of a record. -/
def toRecord [RecordFormat α] (a : α) : Bytes := RecordFormat.write a

/-- Reads one whole record; bytes left over are an error. -/
def ofRecord [RecordFormat α] (bytes : Bytes) : Except FormatError α :=
  let whole : Reader α := do
    let a ← RecordFormat.read
    Reader.finish
    pure a
  (whole.run bytes).1

namespace Tag

def function : UInt32 := 4
def method : UInt32 := 5
def property : UInt32 := 6
def constant : UInt32 := 7
def classConstant : UInt32 := 8
def defineConstant : UInt32 := 9
def localVariable : UInt32 := 10
def reference : UInt32 := 20
def variableScope : UInt32 := 21
def imports : UInt32 := 22
def document : UInt32 := 23
def completion : UInt32 := 24

def ofClass : ClassSort → UInt32
  | .class => 1
  | .interface => 2
  | .trait => 3

end Tag

namespace Reader

def tag (expected : UInt32) : Reader Unit := do
  let found ← word
  if found = expected then pure () else fail (.tagMismatch expected found)

def modifiers : Reader Modifiers := do
  let bits ← word
  match Modifiers.ofBits? bits with
  | some m => pure m
  | none => fail (.unknownFlags .modifier bits)

def visibility : Reader Visibility := do
  let bits ← word
  match Visibility.ofBits? bits with
  | some v => pure v
  | none => fail (.unknownFlags .visibility bits)

end Reader

end PhpIndex
