import PhpIndex.Store.Error

/-!
# The store

Rows in memory that may be kept in a snapshot file. A store is dirty while it may hold something
else than its file; only a dirty store is written.
-/
namespace PhpIndex

/-- `persistent` tells whether the store has a file at all. -/
structure Store where
  rows : Rows
  persistent : Bool
  dirty : Bool
  deriving DecidableEq

namespace Store

/-- A store without a file. -/
def volatile : Store := ⟨.empty, false, false⟩

/-- A store with a file: what the file holds, in a block that the given function unpacks, or
nothing if there is none yet. -/
def openFileWith (unpack? : Bytes → Option Bytes) (path : String) (file? : Option Bytes) :
    Except StoreError Store :=
  match file? with
  | none => .ok ⟨.empty, true, false⟩
  | some file =>
    match Snapshot.readWith unpack? file with
    | .ok rows => .ok ⟨rows, true, false⟩
    | .error fault => .error (.snapshot path fault)

def openFile (path : String) (file? : Option Bytes) : Except StoreError Store :=
  openFileWith Lz4.unpack? path file?

def put (s : Store) (key value : Bytes) : Store :=
  { s with rows := s.rows.insert key value, dirty := true }

/-- Answers whether there was such a row. -/
def delete (s : Store) (key : Bytes) : Store × Bool :=
  if s.rows.contains key then ({ s with rows := s.rows.erase key, dirty := true }, true)
  else (s, false)

/-- Answers how many rows there were. -/
def deleteAll (s : Store) (lead : Bytes) : Store × Nat :=
  let count := (s.rows.scan lead).length
  if count = 0 then (s, 0)
  else ({ s with rows := s.rows.eraseAll lead, dirty := true }, count)

/-- Makes all changes of a batch at once. -/
def apply (s : Store) (batch : Batch) : Store :=
  if batch.isEmpty then s else { s with rows := s.rows.apply batch, dirty := true }

/-- What has to be written for the file to hold the store, in a block that the given function
packs. -/
def pending? (pack : Bytes → Bytes) (s : Store) : Option Bytes :=
  if s.persistent && s.dirty then some (Snapshot.writeWith pack s.rows) else none

/-- The store after its rows were written. -/
def saved (s : Store) : Store := if s.persistent then { s with dirty := false } else s

/-- Writes the store if it is dirty. `write` puts the bytes in place of the file, or fails and
leaves the file as it was; after a failure the store stays dirty. -/
def flushWith [Monad m] (pack : Bytes → Bytes) (s : Store)
    (write : Bytes → m (Except FileFault Unit)) : m (Store × Except StoreError Unit) := do
  match s.pending? pack with
  | none => pure (s, .ok ())
  | some bytes =>
    match ← write bytes with
    | .ok () => pure (s.saved, .ok ())
    | .error fault => pure (s, .error (.file fault))

def flush [Monad m] (s : Store) (write : Bytes → m (Except FileFault Unit)) :
    m (Store × Except StoreError Unit) :=
  s.flushWith Lz4.pack write

end Store
end PhpIndex
