import PhpIndex.Json.Lookup
import PhpIndex.Settings.Layers
import PhpIndex.Text.WholeNumber
import PhpIndex.Workspace.Error
import PhpIndex.Workspace.Indexing

/-!
# Outcomes of commands

What a command prints and how it ends. A failed command tells what it was about, why it failed
and what may be tried.
-/
namespace PhpIndex

/-- The texts printed one after the other, each with a line end behind it. -/
structure Outcome where
  code : UInt8
  output : List String := []
  errors : List String := []
  deriving DecidableEq

inductive CommandFault where
  | settings (fault : SettingsFault)
  | index (e : IndexError)
  /-- A file named by the user, with what was to be done with it. -/
  | file (purpose? : Option String) (fault : FileFault)
  | number (purpose? : Option String) (fault : NumberFault)
  | beyondEnd (offset : Nat) (path : String)
  | alreadySet
  | numberTooLarge
  deriving DecidableEq

namespace CommandFault

/-- The message, followed by those of the causes behind it. -/
def trail : CommandFault → List String
  | .settings fault => ["configuration error", fault.message]
  | .index e => e.trail
  | .file purpose? fault => purpose?.toList ++ [fault.message]
  | .number purpose? fault => purpose?.toList ++ [fault.message]
  | .beyondEnd offset path =>
    ["offset " ++ toString offset ++ " is past the end of '" ++ path ++ "'"]
  | .alreadySet => ["Configuration file already exists. Use --force to overwrite"]
  | .numberTooLarge => ["out-of-range value for u64 type"]

def hints : CommandFault → List String
  | .index e => e.hints
  | _ => []

def lines (f : CommandFault) : List String :=
  ("Error: " ++ Text.joinWith ": " f.trail) :: f.hints.map ("  hint: " ++ ·)

end CommandFault

namespace Outcome

def ofResult : Except CommandFault (List String) → Outcome
  | .ok output => { code := 0, output }
  | .error fault => { code := 1, errors := fault.lines }

end Outcome

/-- The counts of a run in JSON, by their names in order. -/
def IndexReport.json (r : IndexReport) : Json :=
  .object [("errors", toJson r.errors), ("failed", toJson r.failed), ("indexed", toJson r.indexed),
    ("removed", toJson r.removed), ("symbols", toJson r.symbols), ("unchanged", toJson r.unchanged)]

/-- A symbol as a command lists it, with the line that it begins in, if its text is known. -/
structure SymbolLine where
  symbol : Symbol
  line? : Option Nat

namespace SymbolLine

/-- Lines count from one. -/
def ofText (text? : Option String) (s : Symbol) : SymbolLine :=
  let before? := do
    let text ← text?
    let range ← s.location.range?
    Text.slice? text 0 range.start.toNat
  ⟨s, before?.map (fun before => before.toList.count '\n' + 1)⟩

def print (l : SymbolLine) : String :=
  let location := l.symbol.location
  match location.uri?, l.line?, location.range? with
  | some uri, some line, _ => l.symbol.label ++ "  " ++ uri ++ ":" ++ toString line
  | some uri, none, some range =>
    l.symbol.label ++ "  " ++ uri ++ "@" ++ toString range.start.toNat
  | _, _, _ => l.symbol.label

instance : ToJson SymbolLine where
  toJson l := .object
    [("kind", toJson l.symbol.kind.name), ("name", toJson l.symbol.name),
     ("label", toJson l.symbol.label), ("uri", toJson l.symbol.location.uri?),
     ("line", toJson l.line?), ("offset", toJson (l.symbol.location.range?.map Range.start))]

end SymbolLine

/-- The signatures with a mark at the active one, and the parameter at which the argument is. -/
def SignatureHelp.lines (h : SignatureHelp) : List String :=
  (h.signatures.zipIdx).flatMap fun (s, i) =>
    ((if i = h.activeSignature then "> " else "  ") ++ s.label) ::
      (s.parameters[h.activeParameter]?).toList.map ("    parameter: " ++ ·)

end PhpIndex
