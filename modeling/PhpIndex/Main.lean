import PhpIndex.Command.Run
import PhpIndex.Source.TreeText
import Std.Time.DateTime.Timestamp

/-!
# The program

Reads the files that a command may need, runs the command on them and writes down what it has
changed. The tree of a source file is not found here: it stands next to the file as a table, in a
file of the same name with `.tree` behind it.
-/
namespace PhpIndex.Program

/-- Hidden files that commands look at. -/
def hiddenNames : List String := [settingsDirectory, ignoreFileName, ".gitignore", ".ignore"]

/-- Adds a file, or a directory with what is in it. A link is added as one to the place where it
leads in the end, which is not added itself. -/
partial def gather (disk : Disk) (path : String) : IO Disk := do
  let place := (← IO.currentDir) / path
  match ← place.symlinkMetadata.toBaseIO with
  | .error _ => pure disk
  | .ok data =>
    let modified := Int64.ofInt data.modified.sec
    match data.type with
    | .dir =>
      let mut disk := (disk.makeDirectories path modified).toOption.getD disk
      for entry in ← place.readDir do
        if !Text.startsWith "." entry.fileName || entry.fileName ∈ hiddenNames then
          disk ← gather disk (Path.join path entry.fileName)
      pure disk
    | .file =>
      let content := (← IO.FS.readBinFile place).toList
      pure ((disk.writeWithParents path content modified).toOption.getD disk)
    | .symlink =>
      match ← (IO.FS.realPath place).toBaseIO with
      | .ok target =>
        let target := target.toString
        pure (if h : target ≠ "" ∧ '\x00' ∉ target.toList then
          ⟨disk.entries.insert path (.link ⟨target, h.1, h.2⟩)⟩ else disk)
      | .error _ => pure disk
    | _ => pure disk

/-- Adds what a path leads to, if there is something. -/
def gatherNamed (disk : Disk) (path : String) : IO Disk := do
  match ← (IO.FS.realPath ((← IO.currentDir) / path)).toBaseIO with
  | .ok place => if disk.exists? place.toString then pure disk else gather disk place.toString
  | .error _ => pure disk

/-- The files around the working directory, and those that the words of the line name. -/
def gatherAround (cwd : String) (line : List String) : IO Disk := do
  let mut disk := Disk.empty
  for directory in Settings.ancestors cwd do
    for name in hiddenNames do
      disk ← gather disk (Path.join directory name)
  let root := (Settings.rootAbove? disk cwd).getD cwd
  disk ← gather disk root
  for word in line do
    for directory in Settings.ancestors cwd do
      if !word.isEmpty && !isSwitchWord word then
        disk ← gatherNamed disk (Path.join directory word)
  pure disk

/-- Writes the entries that are new or have changed. -/
def store (before after : Disk) : IO Unit := do
  let cwd ← IO.currentDir
  for (path, entry) in after.entries.entries do
    if before.entries.get? path ≠ some entry then
      match entry with
      | .directory _ => IO.FS.createDirAll (cwd / path)
      | .file content _ => IO.FS.writeBinFile (cwd / path) ⟨content.toArray⟩
      | .link _ => pure ()

/-- The trees that stand next to their files. -/
def grammarOf (disk : Disk) : Grammar :=
  let known := disk.files.filterMap fun path => do
    let source ← Text.beforeTail? ".tree" path
    let text ← (disk.readText source).toOption
    let table ← (disk.readText path).toOption
    some (text, ← SyntaxTree.ofText? table)
  fun text => (known.lookup text).getD .blank

/-- The variables that are looked at. -/
def variableNames : List String :=
  [configVariable, "PS_VERSION", "PS_WORKSPACE_ROOT", "PS_DEBUG", "PS_INDEX", "PS_INDEX__PATH",
   "PS_INDEX__PERSIST", "PS_INDEXING", "PS_INDEXING__EXTENSIONS", "PS_INDEXING__IGNORE_PATTERNS",
   "PS_INDEXING__MAX_CONCURRENT_FILES", "PS_COMPLETION", "PS_COMPLETION__LIMIT"]

def readEnvironment : IO Environment.Variables :=
  variableNames.filterMapM (fun name => do pure ((← IO.getEnv name).map (fun value => (name, value))))

end PhpIndex.Program

open PhpIndex in
/-- Files are read one after the other, so that one processor is counted. -/
def main (line : List String) : IO UInt32 := do
  let cwd := (← IO.FS.realPath (← IO.currentDir)).toString
  let disk ← Program.gatherAround cwd line
  let now := (← Std.Time.Timestamp.now).toSecondsSinceUnixEpoch.val
  let host : Host := ⟨Program.grammarOf disk, disk, cwd, .ofInt now⟩
  let (after, outcome) := Shell.run ⟨host, ← Program.readEnvironment, 1⟩ line
  Program.store disk after
  for text in outcome.output do IO.println text
  for text in outcome.errors do IO.eprintln text
  pure outcome.code.toUInt32
