import PhpIndex.Disk.Basic
import PhpIndex.Settings.Basic
import PhpIndex.Settings.Environment
import PhpIndex.Toml.Document

/-!
# Layers of settings

Settings come from what holds without them, from a settings file and from the environment, each
over the one before. The joined values must fit the settings; what is no setting is passed over.
-/
namespace PhpIndex

/-- Why there are no settings. -/
inductive SettingsFault where
  /-- The settings file is no text. -/
  | unreadable
  /-- The settings file is not written as it should be. -/
  | malformed
  /-- A value is not of the kind of its setting, or too large. -/
  | unfit
  deriving DecidableEq

namespace SettingsFault

def message : SettingsFault → String
  | .unreadable => "the settings file is no text"
  | .malformed => "the settings file is malformed"
  | .unfit => "a setting has a value that does not fit"

end SettingsFault

namespace IndexSettings

def toConfig (s : IndexSettings) : ConfigValue :=
  .table [("path", .text s.path), ("persist", .bool s.persist)]

def ofConfig? (v : ConfigValue) : Option IndexSettings := do
  let path ← v.part 0 "path" ".phpsense/index" ConfigValue.text?
  let persist ← v.part 1 "persist" true ConfigValue.bool?
  pure { path, persist }

end IndexSettings

namespace IndexingSettings

def toConfig (s : IndexingSettings) : ConfigValue :=
  .table
    [("extensions", .list (s.extensions.map .text)),
     ("ignore_patterns", .list (s.ignorePatterns.map .text)),
     ("max_concurrent_files", .integer s.maxConcurrentFiles.toNat)]

/-- A section that says nothing of patterns to ignore has none. -/
def ofConfig? (missing : IndexingSettings) (v : ConfigValue) : Option IndexingSettings := do
  let extensions ← v.part 0 "extensions" missing.extensions ConfigValue.texts?
  let ignorePatterns ← v.part 1 "ignore_patterns" [] ConfigValue.texts?
  let files ← v.part 2 "max_concurrent_files" missing.maxConcurrentFiles.toNat
    (ConfigValue.natural? UInt64.size)
  pure { extensions, ignorePatterns, maxConcurrentFiles := .ofNat files }

end IndexingSettings

namespace CompletionSettings

def toConfig (s : CompletionSettings) : ConfigValue :=
  .table [("limit", .integer s.limit.toNat)]

def ofConfig? (v : ConfigValue) : Option CompletionSettings := do
  let limit ← v.part 0 "limit" 100 (ConfigValue.natural? UInt64.size)
  pure { limit := .ofNat limit }

end CompletionSettings

namespace Settings

def toConfig (s : Settings) : ConfigValue :=
  let root := s.workspaceRoot?.toList.map (fun root => ("workspace_root", .text root))
  .table
    (("version", .integer s.version.toNat) :: root ++
      [("debug", .bool s.debug), ("index", s.index.toConfig),
       ("indexing", s.indexing.toConfig), ("completion", s.completion.toConfig)])

/-- The settings of a table, if everything in it fits; what it leaves out is as in `missing`. -/
def ofConfig? (missing : Settings) (v : ConfigValue) : Option Settings := do
  let version ← v.part 0 "version" missing.version.toNat (ConfigValue.natural? UInt32.size)
  let workspaceRoot? ← v.part 1 "workspace_root" none (fun v => some <$> v.text?)
  let debug ← v.part 2 "debug" false ConfigValue.bool?
  let index ← v.part 3 "index" missing.index IndexSettings.ofConfig?
  let indexing ← v.part 4 "indexing" missing.indexing
    (IndexingSettings.ofConfig? missing.indexing)
  let completion ← v.part 5 "completion" missing.completion CompletionSettings.ofConfig?
  pure { version := .ofNat version, workspaceRoot?, debug, index, indexing, completion }

/-- The settings of a file's text and the environment over those of a user who has set nothing. -/
def ofLayers (processors : UInt64) (text? : Option String) (environment : Environment.Variables) :
    Except SettingsFault Settings := do
  let standard := Settings.standard processors
  let file ← match text? with
    | none => pure (.table [])
    | some text =>
      match Toml.parse? text with
      | some table => pure table
      | none => throw .malformed
  let joined := (standard.toConfig.coveredBy file).coveredBy (Environment.settings environment)
  match ofConfig? standard joined with
  | some settings => pure settings
  | none => throw .unfit

/-- The text of a settings file that may not be there. -/
def readFile (disk : Disk) : Option String → Except SettingsFault (Option String)
  | none => .ok none
  | some path =>
    match disk.readText path with
    | .ok text => .ok (some text)
    | .error _ => .error .unreadable

/-- A directory and those above it, the nearest first. -/
def ancestors (directory : String) : List String :=
  let names := Path.segments directory
  (List.range (names.length + 1)).map (fun n => Path.ofSegments (names.take (names.length - n)))

def isFile (disk : Disk) (path : String) : Bool :=
  (disk.lookup path).toOption.any (fun p => p.2.isFile)

/-- The file that a path names. A relative path leads from a directory, or else from the nearest
one above it where there is such a file. -/
def findFile? (disk : Disk) (cwd path : String) : Option String :=
  if Path.isAbsolute path then (if isFile disk path then some path else none)
  else ((ancestors cwd).map (Path.join · path)).find? (isFile disk)

/-- The nearest directory, from the given one upwards, with a directory of settings in it. -/
def rootAbove? (disk : Disk) (cwd : String) : Option String :=
  (ancestors cwd).find? (fun directory => disk.isDirectory (Path.join directory settingsDirectory))

def fileName : String := "settings.toml"

/-- The settings file of a workspace. -/
def filePath (root : String) : String := Path.join (Path.join root settingsDirectory) fileName

/-- What surrounds a program that loads its settings. -/
structure Surroundings where
  disk : Disk
  cwd : String
  environment : Environment.Variables
  processors : UInt64

/-- The settings with those of a file over them, which need not be there. -/
def loadFrom (s : Surroundings) (path : String) : Except SettingsFault Settings := do
  ofLayers s.processors (← readFile s.disk (findFile? s.disk s.cwd path)) s.environment

/-- The settings of the workspace around the working directory. -/
def load (s : Surroundings) : Except SettingsFault Settings := do
  let root? := rootAbove? s.disk s.cwd
  let path := match root? with
    | some root => filePath root
    | none => Path.join settingsDirectory fileName
  let settings ← loadFrom s path
  pure { settings with workspaceRoot? := settings.workspaceRoot?.orElse (fun _ => root?) }

end Settings
end PhpIndex
