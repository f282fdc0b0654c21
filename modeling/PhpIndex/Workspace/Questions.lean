import PhpIndex.Lookup.Completion
import PhpIndex.Lookup.Help
import PhpIndex.Workspace.Basic

/-!
# Questions to a workspace

What is asked about a place in a document. An open document answers from its buffer and any other
from the store, and both look names up in the same way.
-/
namespace PhpIndex.Workspace

/-- What names and variables mean in a document. -/
def context (w : Workspace) (uri : String) : Except IndexError DocumentContext :=
  match w.opened.get? uri with
  | some d => .ok d.context
  | none => do
    match ← w.ask (Index.document uri) with
    | some record => pure (.ofRecord record (← w.ask (Index.scopesOf uri)))
    | none => pure (.empty uri)

/-- The innermost reference at an offset. -/
def referenceAt (w : Workspace) (uri : String) (offset : UInt32) :
    Except IndexError (Option Reference) :=
  match w.opened.get? uri with
  | some d => .ok (d.referenceAt offset)
  | none => w.ask (Index.referenceAt uri offset)

/-- The innermost argument list at an offset. -/
def callAt (w : Workspace) (uri : String) (offset : UInt32) :
    Except IndexError (Option Reference) :=
  match w.opened.get? uri with
  | some d => .ok (d.callAt offset)
  | none => w.ask (Index.callAt uri offset)

/-- The declarations that a reference may mean. -/
def definitionOf (w : Workspace) (uri : String) (r : Reference) :
    Except IndexError (List Symbol) := do
  let ctx ← w.context uri
  (w.source.definition ctx r).mapError IndexError.store

/-- The symbols with which a reference may be completed. -/
def completionOf (w : Workspace) (uri : String) (r : Reference) (offset : UInt32) :
    Except IndexError (List Symbol) := do
  let ctx ← w.context uri
  (w.source.completion ctx r offset w.settings.completion.limit.toNat).mapError IndexError.store

def definition (w : Workspace) (uri : String) (offset : UInt32) :
    Except IndexError (List Symbol) := do
  match ← w.referenceAt uri offset with
  | some r => w.definitionOf uri r
  | none => pure []

def completion (w : Workspace) (uri : String) (offset : UInt32) :
    Except IndexError (List Symbol) := do
  match ← w.referenceAt uri offset with
  | some r => w.completionOf uri r offset
  | none => pure []

def hover (w : Workspace) (uri : String) (offset : UInt32) :
    Except IndexError (Option Hover) := do
  match ← w.referenceAt uri offset with
  | some r =>
    let ctx ← w.context uri
    (w.source.hover ctx r).mapError IndexError.store
  | none => pure none

def signatureHelp (w : Workspace) (uri : String) (offset : UInt32) :
    Except IndexError (Option SignatureHelp) := do
  match ← w.callAt uri offset with
  | some call =>
    let ctx ← w.context uri
    (w.source.signatureHelp ctx call offset).mapError IndexError.store
  | none => pure none

/-- The declarations of a document in source order. -/
def documentSymbols (w : Workspace) (uri : String) : Except IndexError (List Symbol) :=
  match w.opened.get? uri with
  | some d => .ok d.symbolsInSourceOrder
  | none => w.ask (Index.documentSymbols uri)

/-- Declarations at the top level by the beginning of a word of their names. -/
def symbols (w : Workspace) (query : String) : Except IndexError (List Symbol) :=
  (w.source.workspaceSymbols query w.settings.completion.limit.toNat).mapError IndexError.store

end PhpIndex.Workspace
