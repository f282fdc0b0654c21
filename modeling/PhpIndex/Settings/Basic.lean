import PhpIndex.Disk.Basic

/-!
# Settings

What a user may set, and where the index of a workspace is kept.
-/
namespace PhpIndex

/-- The directory of the settings and, unless set otherwise, of the index. -/
def settingsDirectory : String := ".phpsense"

structure IndexSettings where
  path : String := ".phpsense/index"
  /-- Without persistence the index is lost at the end of the program. -/
  persist : Bool := true
  deriving DecidableEq

structure IndexingSettings where
  extensions : List String := ["php", "phtml", "inc"]
  ignorePatterns : List String := [".git/**", "node_modules/**"]
  /-- How many files may be read at once. -/
  maxConcurrentFiles : UInt64
  deriving DecidableEq

structure CompletionSettings where
  limit : UInt64 := 100
  deriving DecidableEq

structure Settings where
  version : UInt32 := 1
  workspaceRoot? : Option String := none
  debug : Bool := false
  index : IndexSettings := {}
  indexing : IndexingSettings
  completion : CompletionSettings := {}
  deriving DecidableEq

namespace Settings

/-- The settings of a user who has set nothing. -/
def standard (processors : UInt64) : Settings :=
  { indexing := { maxConcurrentFiles := max processors 1 } }

/-- A relative path is taken from the root of the workspace, where that is known. -/
def indexDirectory (s : Settings) : String :=
  match s.workspaceRoot? with
  | some root => Path.join root s.index.path
  | none => s.index.path

end Settings
end PhpIndex
