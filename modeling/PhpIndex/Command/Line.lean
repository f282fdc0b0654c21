import PhpIndex.Settings.Environment
import PhpIndex.Text.Cut
import PhpIndex.Text.WholeNumber

/-!
# Command lines

What a user asks for in words. Some switches may stand before and behind the word of a command,
where the one behind it wins; operands come in the order of a command, and behind two dashes there
are operands only.
-/
namespace PhpIndex

/-- What is asked about a place in a file. -/
inductive PlaceQuestion where
  | definition
  | completion
  | signature
  | hover
  deriving DecidableEq

inductive Command where
  | init (force : Bool)
  | config
  | index (path : String) (threads? : Option UInt64) (dryRun : Bool)
  | ask (question : PlaceQuestion) (file place : String)
  | symbols (file : String)
  | search (query : String)
  deriving DecidableEq

/-- A command, and what holds for every command. -/
structure Invocation where
  config? : Option String
  debug : Bool
  json : Bool
  command : Command
  deriving DecidableEq

inductive Switch where
  | config
  | debug
  | json
  | force
  | threads
  | dryRun
  | help
  | version
  deriving DecidableEq

namespace Switch

def all : List Switch := [.config, .debug, .json, .force, .threads, .dryRun, .help, .version]

def name : Switch → String
  | .config => "config"
  | .debug => "debug"
  | .json => "json"
  | .force => "force"
  | .threads => "threads"
  | .dryRun => "dry-run"
  | .help => "help"
  | .version => "version"

def letter? : Switch → Option Char
  | .config => some 'c'
  | .force => some 'f'
  | .threads => some 't'
  | .help => some 'h'
  | .version => some 'V'
  | _ => none

def takesValue : Switch → Bool
  | .config => true
  | .threads => true
  | _ => false

end Switch

/-- Why a command line means nothing. -/
inductive UsageFault where
  | noCommand
  | unknownCommand (word : String)
  | unknownSwitch (word : String)
  | missingValue (switch : Switch)
  | surplusValue (switch : Switch)
  | repeated (switch : Switch)
  | badNumber (word : String)
  | emptyPath
  | missingOperand
  | surplusOperand (word : String)
  deriving DecidableEq

namespace UsageFault

def message : UsageFault → String
  | .noCommand => "a command is required"
  | .unknownCommand word => "there is no command '" ++ word ++ "'"
  | .unknownSwitch word => "there is no option '" ++ word ++ "' here"
  | .missingValue s => "option '--" ++ s.name ++ "' needs a value"
  | .surplusValue s => "option '--" ++ s.name ++ "' takes no value"
  | .repeated s => "option '--" ++ s.name ++ "' is given twice"
  | .badNumber word => "'" ++ word ++ "' is no number of threads"
  | .emptyPath => "a path is empty"
  | .missingOperand => "an operand is missing"
  | .surplusOperand word => "operand '" ++ word ++ "' is one too many"

end UsageFault

/-- Why a command line leads to no invocation: it is faulty, or asks for something else. -/
inductive Halt where
  | usage (fault : UsageFault)
  | help
  | version
  deriving DecidableEq

inductive OperandKind where
  | path
  | text
  deriving DecidableEq

/-- What may stand at a part of the line: in front of the word of the command, or behind it. The
word of the command ends the part in front of it. -/
structure Part where
  switches : List Switch
  operands : List OperandKind := []
  leadsToCommand : Bool := false

/-- What stands there. A switch that still waits for its value is pending. -/
structure Given where
  switches : List (Switch × String) := []
  operands : List String := []
  pending? : Option Switch := none

namespace Given

def has (g : Given) (s : Switch) : Bool := (g.switches.lookup s).isSome

/-- Takes a switch with its value, which is empty for one that has none. -/
def give (g : Given) (s : Switch) (value : String) : Except Halt Given :=
  if s = .help then .error .help
  else if s = .version then .error .version
  else if g.has s then .error (.usage (.repeated s))
  else if s = .config ∧ value.isEmpty then .error (.usage .emptyPath)
  else if s = .threads ∧ (parseNatural (UInt64.size - 1) value).toOption.isNone then
    .error (.usage (.badNumber value))
  else .ok { g with switches := g.switches ++ [(s, value)], pending? := none }

/-- Takes the next operand. -/
def push (g : Given) (part : Part) (word : String) : Except Halt Given :=
  match part.operands[g.operands.length]? with
  | none => .error (.usage (.surplusOperand word))
  | some kind =>
    if kind = .path ∧ word.isEmpty then .error (.usage .emptyPath)
    else .ok { g with operands := g.operands ++ [word] }

/-- Takes a switch by its name, behind which its value may stand after an equals sign. -/
def readName (g : Given) (part : Part) (body : String) : Except Halt Given :=
  let (name, value?) := match Text.splitFirst '=' body with
    | some (name, value) => (name, some value)
    | none => (body, none)
  match part.switches.find? (fun s => s.name = name), value? with
  | none, _ => .error (.usage (.unknownSwitch ("--" ++ name)))
  | some s, some value =>
    if s.takesValue then g.give s value else .error (.usage (.surplusValue s))
  | some s, none => if s.takesValue then .ok { g with pending? := some s } else g.give s ""

/-- Takes switches by their letters. The first that takes a value has the rest of the word for
it. -/
def readLetters (g : Given) (part : Part) : List Char → Except Halt Given
  | [] => .ok g
  | c :: rest =>
    match part.switches.find? (fun s => s.letter? = some c) with
    | none => .error (.usage (.unknownSwitch ("-" ++ String.singleton c)))
    | some s =>
      if s.takesValue then
        match rest with
        | [] => .ok { g with pending? := some s }
        | '=' :: value => g.give s (String.ofList value)
        | value => g.give s (String.ofList value)
      else do readLetters (← g.give s "") part rest

end Given

/-- A single dash is an operand. -/
def isSwitchWord (word : String) : Bool := Text.startsWith "-" word && word ≠ "-"

namespace Part

/-- Reads a part of the line, and answers what is left of the line behind it. -/
def read (part : Part) (g : Given) : List String → Except Halt (Given × List String)
  | [] =>
    match g.pending? with
    | some s => .error (.usage (.missingValue s))
    | none => .ok (g, [])
  | word :: rest =>
    match g.pending? with
    | some s =>
      if isSwitchWord word then .error (.usage (.missingValue s))
      else do read part (← g.give s word) rest
    | none =>
      if word = "--" then
        if part.leadsToCommand then .error (.usage .noCommand)
        else do .ok (← rest.foldlM (fun g word => g.push part word) g, [])
      else
        match Text.afterLead? "--" word with
        | some body => do read part (← g.readName part body) rest
        | none =>
          if isSwitchWord word then do
            read part (← g.readLetters part (word.toList.drop 1)) rest
          else if part.leadsToCommand then .ok (g, word :: rest)
          else do read part (← g.push part word) rest

end Part

/-- The words that name commands. -/
inductive CommandWord where
  | init
  | config
  | index
  | definition
  | complete
  | signature
  | hover
  | symbols
  | search
  deriving DecidableEq

namespace CommandWord

def all : List CommandWord :=
  [.init, .config, .index, .definition, .complete, .signature, .hover, .symbols, .search]

def text : CommandWord → String
  | .init => "init"
  | .config => "config"
  | .index => "index"
  | .definition => "definition"
  | .complete => "complete"
  | .signature => "signature"
  | .hover => "hover"
  | .symbols => "symbols"
  | .search => "search"

def ofText? (word : String) : Option CommandWord := all.find? (fun w => w.text = word)

def operands : CommandWord → List OperandKind
  | .init => []
  | .config => []
  | .index => [.path]
  | .symbols => [.path]
  | .search => [.text]
  | _ => [.path, .text]

def switches : CommandWord → List Switch
  | .init => [.force]
  | .index => [.threads, .dryRun]
  | _ => []

end CommandWord

/-- The switches that every part of a line takes. -/
def sharedSwitches : List Switch := [.config, .debug, .json, .help]

/-- Makes a command of its word and what stands behind it. -/
def CommandWord.command (word : CommandWord) (g : Given) : Except Halt Command :=
  let threads? := (g.switches.lookup .threads).bind fun value =>
    (parseNatural (UInt64.size - 1) value).toOption.map UInt64.ofNat
  match word, g.operands with
  | .init, _ => .ok (.init (g.has .force))
  | .config, _ => .ok .config
  | .index, path => .ok (.index (path.headD ".") threads? (g.has .dryRun))
  | .definition, [file, place] => .ok (.ask .definition file place)
  | .complete, [file, place] => .ok (.ask .completion file place)
  | .signature, [file, place] => .ok (.ask .signature file place)
  | .hover, [file, place] => .ok (.ask .hover file place)
  | .symbols, [file] => .ok (.symbols file)
  | .search, [query] => .ok (.search query)
  | _, _ => .error (.usage .missingOperand)

/-- The variable that names a settings file where no switch does. -/
def configVariable : String := "PHPSENSE_CONFIG"

namespace Invocation

/-- The word `help` asks for help, about a command or at large. -/
def helpAbout : List String → Halt
  | [] => .help
  | [word] => if (CommandWord.ofText? word).isSome ∨ word = "help" then .help
    else .usage (.unknownCommand word)
  | _ :: word :: _ => .usage (.unknownCommand word)

/-- What a command line asks for. -/
def parse (environment : Environment.Variables) (line : List String) : Except Halt Invocation := do
  let (before, rest) ← Part.read
    { switches := sharedSwitches ++ [.version], leadsToCommand := true } {} line
  match rest with
  | [] => .error (.usage .noCommand)
  | "help" :: rest => .error (helpAbout rest)
  | word :: rest =>
    match CommandWord.ofText? word with
    | none => .error (.usage (.unknownCommand word))
    | some word =>
      let (behind, _) ← Part.read
        { switches := sharedSwitches ++ word.switches, operands := word.operands } {} rest
      let fromVariable? := environment.lookup configVariable
      if fromVariable? = some "" then .error (.usage .emptyPath)
      let command ← word.command behind
      let config? := (behind.switches.lookup .config).orElse fun _ =>
        (before.switches.lookup .config).orElse fun _ => fromVariable?
      let either := fun s => before.has s || behind.has s
      pure ⟨config?, either .debug, either .json, command⟩

end Invocation
end PhpIndex
