import PhpIndex.Store.Lz4
import PhpIndex.Store.Rows

/-!
# Snapshots

The file in which a store keeps its rows: four magic bytes, the version of the format, the
number of rows, and one packed block with the length and the bytes of every key and value. All
numbers stand with their least significant byte first.
-/
namespace PhpIndex

inductive SnapshotFault where
  | tooSmall
  | magic
  | version (found : UInt32)
  | packing
  | truncatedKey
  | truncatedValue
  | trailingData
  | other (reason : String)
  deriving DecidableEq

namespace SnapshotFault

def reason : SnapshotFault → String
  | .tooSmall => "file too small"
  | .magic => "invalid magic bytes"
  | .version _ => "unsupported version"
  | .packing => "decompression failed"
  | .truncatedKey => "truncated key"
  | .truncatedValue => "truncated value"
  | .trailingData => "unexpected trailing data"
  | .other reason => reason

end SnapshotFault

namespace Snapshot

def magic : Bytes := [0x50, 0x48, 0x50, 0x58]

def version : Nat := 1

/-- A length and so many bytes. -/
def writeChunk (bytes : Bytes) : Bytes := Bytes.ofLittleEndian 4 bytes.length ++ bytes

def writeRows (rows : List Row) : Bytes :=
  rows.flatMap (fun row => writeChunk row.1 ++ writeChunk row.2)

/-- The file of these rows, with a block that the given function packs. -/
def writeWith (pack : Bytes → Bytes) (rows : Rows) : Bytes :=
  magic ++ Bytes.ofLittleEndian 4 version ++ Bytes.ofLittleEndian 8 rows.size ++
    pack (writeRows rows.entries)

def write (rows : Rows) : Bytes := writeWith Lz4.pack rows

/-- The bytes of a chunk and what follows it. -/
def readChunk (raw : Bytes) : Option (Bytes × Bytes) :=
  if raw.length < 4 then none
  else
    let length := Bytes.littleEndian (raw.take 4)
    let rest := raw.drop 4
    if rest.length < length then none else some (rest.take length, rest.drop length)

/-- Reads so many rows and asks for the end behind them. -/
def readRows (rows : Rows) : Nat → Bytes → Except SnapshotFault Rows
  | 0, raw => if raw.isEmpty then .ok rows else .error .trailingData
  | count + 1, raw =>
    match readChunk raw with
    | none => .error .truncatedKey
    | some (key, raw) =>
      match readChunk raw with
      | none => .error .truncatedValue
      | some (value, raw) => readRows (rows.insert key value) count raw

/-- Reads a snapshot whose block the given function unpacks. -/
def readWith (unpack? : Bytes → Option Bytes) (file : Bytes) : Except SnapshotFault Rows :=
  let found := Bytes.littleEndian ((file.drop 4).take 4)
  if file.length < 16 then .error .tooSmall
  else if file.take 4 ≠ magic then .error .magic
  else if found ≠ version then .error (.version (.ofNat found))
  else
    match unpack? (file.drop 16) with
    | none => .error .packing
    | some raw => readRows .empty (Bytes.littleEndian ((file.drop 8).take 8)) raw

def read (file : Bytes) : Except SnapshotFault Rows := readWith Lz4.unpack? file

end Snapshot
end PhpIndex
