import PhpIndex.Command.Line
import PhpIndex.Command.Outcome
import PhpIndex.Document.Position
import PhpIndex.Settings.Text
import PhpIndex.Workspace.Indexing
import PhpIndex.Workspace.Questions

/-!
# Running commands

What each command does with the disk, and what it prints. A question brings the file that it is
about up to date before it is answered, but saves nothing.
-/
namespace PhpIndex

/-- What surrounds a command; the disk of the host is as it is before the command. -/
structure Shell where
  host : Host
  environment : Environment.Variables
  processors : UInt64

namespace Shell

/-- Commands change the disk, also where they fail later. -/
abbrev Run := ExceptT CommandFault (StateM Disk)

def lift (wrap : ε → CommandFault) (r : Except ε α) : Run α :=
  ExceptT.mk (pure (r.mapError wrap))

/-- The host as it is now. -/
def current (s : Shell) : Run Host := do pure { s.host with disk := ← get }

/-- The absolute path of a file that the user has named. -/
def canonical (s : Shell) (purpose? : Option String) (path : String) : Run String := do
  let h ← s.current
  lift (.file purpose?) (h.disk.canonical (h.path path))

/-! ## Settings -/

def surroundings (s : Shell) (disk : Disk) : Settings.Surroundings :=
  ⟨disk, s.host.cwd, s.environment, s.processors⟩

def loadSettings (s : Shell) (config? : Option String) : Run Settings := do
  let around := s.surroundings (← get)
  lift .settings (match config? with
    | some path => Settings.loadFrom around path
    | none => Settings.load around)

def write (s : Shell) (path text : String) : Run Unit := do
  let disk ← lift (.file none) ((← get).write path (Bytes.ofText text) s.host.now)
  set disk

/-- What an ignore file holds at first. -/
def firstIgnoreText : String := "# phpsense ignore patterns (gitignore syntax)\n# vendor/\n"

/-- Makes settings and an ignore file in the working directory. Settings that are there are
replaced only by force. -/
def init (s : Shell) (force : Bool) : Run (List String) := do
  let root := s.host.cwd
  let path := Settings.filePath root
  if !force && (← get).exists? path then throw .alreadySet
  let settings := { Settings.standard s.processors with workspaceRoot? := some root }
  let some text := settings.toText? | throw .numberTooLarge
  let directory := Path.join root settingsDirectory
  set (← lift (.file none) ((← get).makeDirectories directory s.host.now))
  s.write path text
  let ignorePath := Path.join root ignoreFileName
  if force || !(← get).exists? ignorePath then s.write ignorePath firstIgnoreText
  pure ["Created configuration file at: " ++ path,
    "Edit this file to customize your settings."]

/-! ## The index -/

def openWorkspace (s : Shell) (settings : Settings) : Run Workspace := do
  let (disk, w) := Workspace.load (← s.current) settings
  set disk
  lift .index w

def index (s : Shell) (json : Bool) (settings : Settings) (path : String)
    (threads? : Option UInt64) (dryRun : Bool) : Run (List String) := do
  let settings :=
    match threads? with
    | some threads =>
      { settings with indexing := { settings.indexing with maxConcurrentFiles := threads } }
    | none => settings
  let root ← s.canonical (some ("cannot index '" ++ path ++ "'")) path
  if dryRun then pure (Workspace.filesToIndex (← s.current) settings root)
  else
    let w ← s.openWorkspace settings
    let (_, disk, report) := w.indexDirectory (← s.current) root
    set disk
    let report ← lift .index report
    pure (if json then [report.json.compact] else report.lines)

/-- Brings a file up to date. -/
def refresh (s : Shell) (w : Workspace) (path : String) : Run Workspace := do
  let (w, done) := w.indexPath (← s.current) path
  let _ ← lift .index done
  pure w

/-! ## Places -/

/-- The offset that a place in a text stands for: a line and a column with a colon between them,
or an offset. -/
def offsetOf (file text place : String) : Except CommandFault UInt32 := do
  let number := fun purpose? s =>
    (parseNatural (UInt32.size - 1) (Text.trimBlank s)).mapError (CommandFault.number purpose?)
  match Text.splitFirst ':' place with
  | some (line, column) =>
    let line ← number none line
    let column ← number none column
    pure (Position.toOffset text ⟨.ofNat line, .ofNat column⟩)
  | none =>
    let offset ← number (some ("bad position '" ++ place ++ "'")) place
    if text.utf8ByteSize < offset then throw (.beyondEnd offset file)
    pure (.ofNat offset)

/-- Opens the index, brings a file up to date and finds a place in it. -/
def openAt (s : Shell) (settings : Settings) (file place : String) :
    Run (Workspace × String × UInt32) := do
  let path ← s.canonical (some ("cannot open '" ++ file ++ "'")) file
  let text ← lift (.file none) ((← get).readText path)
  let w ← s.refresh (← s.openWorkspace settings) path
  let offset ← lift id (offsetOf file text place)
  pure (w, Path.toUri s.host.cwd path, offset)

/-! ## Answers -/

/-- The text of the document of a uri, where it can be read. -/
def textOf? (h : Host) (uri : String) : Option String :=
  (Path.ofUri? uri).bind (fun path => (h.readText path).toOption)

def listSymbols (s : Shell) (json : Bool) (symbols : List Symbol) : Run (List String) := do
  let h ← s.current
  let lines := symbols.map fun symbol =>
    SymbolLine.ofText (symbol.location.uri?.bind (textOf? h)) symbol
  pure
    (if json then [(toJson lines).pretty 0]
    else if lines.isEmpty then ["No symbols found"]
    else lines.map SymbolLine.print)

def answer (s : Shell) (json : Bool) (w : Workspace) (uri : String) (offset : UInt32) :
    PlaceQuestion → Run (List String)
  | .definition => do s.listSymbols json (← lift .index (w.definition uri offset))
  | .completion => do s.listSymbols json (← lift .index (w.completion uri offset))
  | .signature => do
    let help? ← lift .index (w.signatureHelp uri offset)
    pure
      (if json then [(toJson help?).pretty 0]
      else (help?.map SignatureHelp.lines).getD ["No signature help at this position"])
  | .hover => do
    let hover? ← lift .index (w.hover uri offset)
    pure
      (if json then [(toJson hover?).pretty 0]
      else [(hover?.map Hover.contents).getD "Nothing to describe at this position"])

/-! ## Commands -/

def ask (s : Shell) (json : Bool) (settings : Settings) (question : PlaceQuestion)
    (file place : String) : Run (List String) := do
  let (w, uri, offset) ← s.openAt settings file place
  s.answer json w uri offset question

def symbols (s : Shell) (json : Bool) (settings : Settings) (file : String) :
    Run (List String) := do
  let w ← s.refresh (← s.openWorkspace settings) file
  let path ← s.canonical none file
  s.listSymbols json (← lift .index (w.documentSymbols (Path.toUri s.host.cwd path)))

def search (s : Shell) (json : Bool) (settings : Settings) (query : String) :
    Run (List String) := do
  let w ← s.openWorkspace settings
  s.listSymbols json (← lift .index (w.symbols query))

/-- Every command but the one that makes the settings needs them. -/
def invoke (s : Shell) (i : Invocation) : Run (List String) := do
  let settings := s.loadSettings i.config?
  match i.command with
  | .init force => s.init force
  | .config =>
    let some text := (← settings).toText? | throw .numberTooLarge
    pure [text]
  | .index path threads? dryRun => s.index i.json (← settings) path threads? dryRun
  | .ask question file place => s.ask i.json (← settings) question file place
  | .symbols file => s.symbols i.json (← settings) file
  | .search query => s.search i.json (← settings) query

/-- How a user is told what can be asked for. -/
def helpLines : List String :=
  ["PHP source intelligence", "",
   "Usage: phpsense [options] <command>", "",
   "Commands:",
   "  init [-f, --force]                   set up .phpsense with standard settings",
   "  config                               show the settings in force",
   "  index [path] [-t, --threads n] [--dry-run]",
   "                                       build or refresh the index of a workspace",
   "  definition <file> <place>            find the declarations of a name",
   "  complete <file> <place>              complete a name",
   "  signature <file> <place>             show the parameters of a call",
   "  hover <file> <place>                 describe a name",
   "  symbols <file>                       list the declarations of a file",
   "  search <query>                       search declarations by the beginning of a word", "",
   "Options:",
   "  -c, --config <file>                  a settings file of its own",
   "      --debug                          more messages",
   "      --json                           answers in JSON"]

def versionLine : String := "phpsense 0.1.0"

/-- Runs a command line. -/
def run (s : Shell) (line : List String) : Disk × Outcome :=
  match Invocation.parse s.environment line with
  | .ok i =>
    let (result, disk) := (s.invoke i).run s.host.disk
    (disk, .ofResult result)
  | .error .help => (s.host.disk, { code := 0, output := helpLines })
  | .error .version => (s.host.disk, { code := 0, output := [versionLine] })
  | .error (.usage fault) =>
    (s.host.disk, { code := 2, errors := ["error: " ++ fault.message] })

end Shell
end PhpIndex
