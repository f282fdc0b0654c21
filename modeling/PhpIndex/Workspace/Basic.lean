import PhpIndex.Disk.Basic
import PhpIndex.Settings.Basic
import PhpIndex.Workspace.Error
import PhpIndex.Workspace.Overlay

/-!
# The workspace

The store of a workspace and the documents that are open in an editor, and what lies around it:
the disk, the clock and the grammar that finds the tree of a text.
-/
namespace PhpIndex

/-- The tree of a text, by the grammar of the language. -/
abbrev Grammar := String → SyntaxTree

/-- `cwd` is the directory from which relative paths lead, `now` the time in seconds since the
epoch. -/
structure Host where
  grammar : Grammar
  disk : Disk
  cwd : String
  now : Int64

namespace Host

def path (h : Host) (path : String) : String :=
  if path.isEmpty then path else Path.join h.cwd path

/-- The time at which a file was last changed. -/
def modified (h : Host) (path : String) : Except FileFault Int64 := h.disk.modified (h.path path)

def readText (h : Host) (path : String) : Except FileFault String :=
  h.disk.readText (h.path path)

def parse (h : Host) (uri text : String) (modified : Int64) : Document :=
  .ofTree uri text modified (h.grammar text)

end Host

structure Workspace where
  settings : Settings
  store : Store
  opened : OpenDocuments

namespace Workspace

def snapshotName : String := "store.snap"

def snapshotPath (settings : Settings) : String :=
  Path.join settings.indexDirectory snapshotName

/-- What a snapshot file holds; a directory in its place cannot be read. -/
def readSnapshot (h : Host) (path : String) : Except StoreError (Option Bytes) :=
  match h.disk.read (h.path path) with
  | .ok bytes => .ok (some bytes)
  | .error .isDirectory => .error (.file (.other "No such device (os error 19)"))
  | .error _ => .ok none

/-- Opens the index of a workspace. For an index that is kept its directory is made, and what
was saved there is loaded. -/
def load (h : Host) (settings : Settings) : Disk × Except IndexError Workspace :=
  if !settings.index.persist then (h.disk, .ok ⟨settings, .volatile, .empty⟩)
  else
    match h.disk.makeDirectories (h.path settings.indexDirectory) h.now with
    | .error fault => (h.disk, .error (.store (.file fault)))
    | .ok disk =>
      let path := snapshotPath settings
      let store := do Store.openFile path (← readSnapshot { h with disk } path)
      match store with
      | .ok store => (disk, .ok ⟨settings, store, .empty⟩)
      | .error e => (disk, .error (.store e))

/-- Puts a snapshot in place of the old one. -/
def writeSnapshot (h : Host) (path : String) (bytes : Bytes) :
    Disk × Except FileFault Unit :=
  match h.disk.replace (h.path path) bytes h.now with
  | .ok disk => (disk, .ok ())
  | .error fault => (h.disk, .error fault)

/-- Saves the store if it is kept and has changed. -/
def flush (h : Host) (w : Workspace) : Workspace × Disk × Except IndexError Unit :=
  let write : Bytes → StateM Disk (Except FileFault Unit) := fun bytes disk =>
    let (disk, done) := writeSnapshot { h with disk } (snapshotPath w.settings) bytes
    (done, disk)
  let ((store, done), disk) := w.store.flush write h.disk
  ({ w with store }, disk, done.mapError IndexError.store)

def isOpen (w : Workspace) (uri : String) : Bool := w.opened.contains uri

/-- Where symbols are looked up. -/
def source (w : Workspace) : SymbolSource := w.opened.source w.store.rows

/-- Asks the store. -/
def ask (w : Workspace) (q : Query α) : Except IndexError α :=
  (q.run w.store.rows).mapError IndexError.store

end Workspace
end PhpIndex
