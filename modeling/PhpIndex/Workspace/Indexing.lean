import PhpIndex.Discovery.Files
import PhpIndex.Workspace.Basic

/-!
# Indexing

How documents come into the store and out of it. What happens to the rows of a document happens
in one step under its lock; a file is read before, so a document may have been opened or brought
up to date in between and is checked again. A run reports what it
has met: every failure counts, and only a number of messages is kept.
-/
namespace PhpIndex

/-- How many files a run has met with which outcome, and the first errors. -/
structure IndexReport where
  indexed : Nat := 0
  unchanged : Nat := 0
  failed : Nat := 0
  removed : Nat := 0
  symbols : Nat := 0
  /-- Uris and messages. -/
  errors : List (String × String) := []
  deriving DecidableEq

namespace IndexReport

def errorsKept : Nat := 100

def addError (r : IndexReport) (uri message : String) : IndexReport :=
  { r with
    failed := r.failed + 1
    errors := if r.errors.length < errorsKept then r.errors ++ [(uri, message)] else r.errors }

def errorsShown : Nat := 5

/-- The errors at the end of a printed report. -/
def errorLines (r : IndexReport) : List String :=
  if r.errors.isEmpty then []
  else
    let more := r.errors.length - errorsShown
    ["", "Errors (showing first " ++ toString (min r.errors.length errorsShown) ++ "):"] ++
      (r.errors.take errorsShown).map (fun e => "  " ++ e.1 ++ ": " ++ e.2) ++
      (if more = 0 then [] else ["  ... and " ++ toString more ++ " more errors"])

/-- The report as it is printed, less how long the run took. -/
def lines (r : IndexReport) : List String :=
  ["", "Indexing Complete:",
   "  Files indexed: " ++ toString r.indexed,
   "  Files unchanged: " ++ toString r.unchanged,
   "  Files removed: " ++ toString r.removed,
   "  Files failed: " ++ toString r.failed,
   "  Symbols found: " ++ toString r.symbols] ++ r.errorLines

end IndexReport

/-- What an attempt to bring a document up to date has led to. -/
inductive SyncOutcome where
  | indexed (symbols : Nat)
  | unchanged
  deriving DecidableEq

namespace Workspace

/-! ## Single steps -/

/-- Stores a document in place of its last version. -/
def storeDocument (h : Host) (w : Workspace) (d : Document) : Workspace × Except IndexError Unit :=
  match w.store.replaceDocument (d.record h.now) d.symbols d.references d.scopes with
  | .ok store => ({ w with store }, .ok ())
  | .error e => (w, .error (.store e))

/-- Stores a document, or replaces its buffer if it is open. -/
def indexDocument (h : Host) (w : Workspace) (d : Document) : Workspace × Except IndexError Unit :=
  if w.isOpen d.uri then ({ w with opened := w.opened.insert d.uri d }, .ok ())
  else w.storeDocument h d

/-- Whether the stored version of a document is that of this time. -/
def isCurrent (w : Workspace) (uri : String) (modified : Int64) : Except IndexError Bool := do
  let record? ← w.ask (Index.document uri)
  pure (record?.any (fun r => r.modified == modified))

/-- Whether the file of a document need not be read. -/
def isSettled (w : Workspace) (uri : String) (modified : Int64) : Except IndexError Bool :=
  if w.isOpen uri then .ok true else w.isCurrent uri modified

/-- Reads the file of a document and parses it. -/
def readFile (h : Host) (uri : String) (modified : Int64) : Except IndexError Document :=
  match Path.ofUri? uri with
  | none => .error (.general ("'" ++ uri ++ "' is not a file uri"))
  | some path =>
    match h.readText path with
    | .ok text => .ok (h.parse uri text modified)
    | .error fault => .error (.fileRead path fault)

/-- Stores what was read from a file, unless the document was opened since, or was brought up to
date since and need not be stored again. -/
def commit (h : Host) (w : Workspace) (again : Bool) (d : Document) :
    Workspace × Except IndexError SyncOutcome :=
  let settled := if again then .ok (w.isOpen d.uri) else w.isSettled d.uri d.modified
  match settled with
  | .error e => (w, .error e)
  | .ok true => (w, .ok .unchanged)
  | .ok false =>
    let (w, done) := w.storeDocument h d
    (w, done.map (fun _ => .indexed d.symbols.length))

/-- Removes a document from the store, and answers whether it was there. -/
def remove (w : Workspace) (uri : String) : Workspace × Except IndexError Bool :=
  match w.store.removeDocument uri with
  | .ok (store, existed) => ({ w with store }, .ok existed)
  | .error e => (w, .error (.store e))

/-- Opens a document with the text that an editor has, or replaces that text. -/
def openDocument (h : Host) (w : Workspace) (uri text : String) : Workspace × Document :=
  let d := h.parse uri text h.now
  ({ w with opened := w.opened.insert uri d }, d)

/-- Gives up the buffer of a document. -/
def forget (w : Workspace) (uri : String) : Workspace :=
  { w with opened := w.opened.erase uri }

/-! ## Operations -/

def indexFromDisk (h : Host) (w : Workspace) (uri : String) (modified : Int64) (again : Bool) :
    Workspace × Except IndexError SyncOutcome :=
  match readFile h uri modified with
  | .error e => (w, .error e)
  | .ok d => w.commit h again d

/-- Stores the file of a document anew if its time differs from that of the stored version. -/
def sync (h : Host) (w : Workspace) (uri : String) (modified : Int64) :
    Workspace × Except IndexError SyncOutcome :=
  match w.isSettled uri modified with
  | .error e => (w, .error e)
  | .ok true => (w, .ok .unchanged)
  | .ok false => w.indexFromDisk h uri modified false

def indexPath (h : Host) (w : Workspace) (path : String) :
    Workspace × Except IndexError SyncOutcome :=
  match h.modified path with
  | .error fault => (w, .error (.fileRead path fault))
  | .ok modified => w.sync h (Path.toUri h.cwd path) modified

/-- Closes a document. It is stored as it is on disk, or removed if it is not there. -/
def close (h : Host) (w : Workspace) (uri : String) : Workspace × Except IndexError Unit :=
  let w := w.forget uri
  match (Path.ofUri? uri).bind (fun path => (h.modified path).toOption) with
  | some modified =>
    let (w, done) := w.indexFromDisk h uri modified true
    (w, done.map (fun _ => ()))
  | none =>
    let (w, done) := w.remove uri
    (w, done.map (fun _ => ()))

/-! ## Whole directories -/

/-- The files below a directory that the settings ask for. -/
def filesToIndex (h : Host) (settings : Settings) (root : String) : List String :=
  let search := FileSearch.of h.disk settings.indexing.extensions settings.indexing.ignorePatterns
  search.files (h.path root) root

/-- Brings one file up to date and counts the outcome. -/
def indexCounted (h : Host) (acc : Workspace × IndexReport) (path : String) :
    Workspace × IndexReport :=
  let (w, report) := acc
  match w.indexPath h path with
  | (w, .ok (.indexed symbols)) =>
    (w, { report with indexed := report.indexed + 1, symbols := report.symbols + symbols })
  | (w, .ok .unchanged) => (w, { report with unchanged := report.unchanged + 1 })
  | (w, .error e) => (w, report.addError (Path.toUri h.cwd path) e.message)

/-- The beginning of the uris of all documents below a directory. -/
def uriLead (h : Host) (root : String) : String :=
  Text.trimEnd (· == '/') (Path.toUri h.cwd root) ++ "/"

/-- Removes documents, and counts those that were stored. -/
def removeAll (w : Workspace) (count : Nat) : List String → Workspace × Except IndexError Nat
  | [] => (w, .ok count)
  | uri :: rest =>
    match w.remove uri with
    | (w, .ok existed) => removeAll w (if existed then count + 1 else count) rest
    | (w, .error e) => (w, .error e)

/-- Removes the stored documents below a directory that were not seen there and are not open. -/
def removeMissing (h : Host) (w : Workspace) (root : String) (seen : List String) :
    Workspace × Except IndexError Nat :=
  match w.ask Index.uris with
  | .error e => (w, .error e)
  | .ok uris =>
    let missing := uris.filter fun uri =>
      Text.startsWith (uriLead h root) uri && !(decide (uri ∈ seen)) && !w.isOpen uri
    w.removeAll 0 missing

/-- Brings the files that were listed below a directory up to date, removes the documents there
whose files were not, and saves the store. A file that cannot be indexed is reported and does not
stop the others. -/
def indexListed (h : Host) (w : Workspace) (root : String) (files : List String) :
    Workspace × Disk × Except IndexError IndexReport :=
  let (w, report) := files.foldl (indexCounted h) (w, {})
  match w.removeMissing h root (files.map (Path.toUri h.cwd)) with
  | (w, .error e) => (w, h.disk, .error e)
  | (w, .ok removed) =>
    let (w, disk, done) := w.flush h
    (w, disk, done.map (fun _ => { report with removed }))

def indexDirectory (h : Host) (w : Workspace) (root : String) :
    Workspace × Disk × Except IndexError IndexReport :=
  w.indexListed h root (filesToIndex h w.settings root)

end Workspace
end PhpIndex
