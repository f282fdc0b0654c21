import PhpIndex.Discovery.IgnoreRules

/-!
# Files to index

The files below a directory that have one of the wanted extensions. An entry is skipped, with all
that is below it, if a pattern of the settings matches it; else as the ignore files of its
directory and of all directories above say; else if its name begins with a dot.
-/
namespace PhpIndex

/-- The ignore file of this program. -/
def ignoreFileName : String := ".phpsenseignore"

/-- The names of ignore files. What one says goes before all that follow it, in whichever
directory they are. -/
def ignoreFileNames : List String := [ignoreFileName, ".ignore", ".gitignore", ".git/info/exclude"]

/-- The rules of all ignore files by the paths of the files. -/
abbrev IgnoreTable := OrderedMap String (List IgnoreRule)

namespace IgnoreTable

def ofDisk (d : Disk) : IgnoreTable :=
  .ofList (d.entries.entries.filterMap fun e => do
    guard (ignoreFileNames.any fun name => Text.endsWith ("/" ++ name) e.1)
    let content ← match e.2 with
      | .file content _ => some content
      | .directory _ => none
      | .link _ => (d.read e.1).toOption
    some (e.1, IgnoreRules.ofFile content))

/-- What the files of one name say, that of the innermost directory first. `above` and `below`
are the names in front of a directory, the last one first, and behind it. -/
def verdictIn? (t : IgnoreTable) (fileName : String) (isDirectory : Bool) :
    (above : List String) → (below : List String) → Option Verdict
  | above, below =>
    let directory := above.reverse
    let rules := (t.get? (Path.ofSegments (directory ++ [fileName]))).getD []
    match IgnoreRules.verdict? rules (Text.joinWith "/" below) isDirectory, above with
    | some verdict, _ => some verdict
    | none, [] => none
    | none, name :: above => verdictIn? t fileName isDirectory above (name :: below)

/-- What the ignore files say about an entry. -/
def verdict? (t : IgnoreTable) (entry : List String) (isDirectory : Bool) : Option Verdict :=
  match entry.reverse with
  | [] => none
  | name :: above =>
    ignoreFileNames.findSome? fun fileName => t.verdictIn? fileName isDirectory above [name]

end IgnoreTable

/-- What is looked for below a directory. -/
structure FileSearch where
  disk : Disk
  ignored : IgnoreTable
  patterns : List IgnoreRule
  extensions : List String

namespace FileSearch

def of (disk : Disk) (extensions patterns : List String) : FileSearch :=
  ⟨disk, .ofDisk disk, IgnoreRules.ofPatterns patterns, extensions⟩

/-- Extensions are compared without regard to the case of ASCII letters. -/
def hasExtension (s : FileSearch) (name : String) : Bool :=
  match Path.extension? name with
  | none => false
  | some found => s.extensions.any (fun e => Text.lowerAscii e == Text.lowerAscii found)

/-- Whether an entry below the root of the search is skipped. -/
def isSkipped (s : FileSearch) (root below : List String) (isDirectory : Bool) : Bool :=
  let byPattern := IgnoreRules.verdict? s.patterns (Text.joinWith "/" below) isDirectory
  match byPattern.orElse (fun _ => s.ignored.verdict? (root ++ below) isDirectory) with
  | some .excluded => true
  | some .included => false
  | none => Text.startsWith "." (below.getLast?.getD "")

/-- Whether a file is reached from the root: neither it nor a directory on the way is skipped. -/
def isReached (s : FileSearch) (root below : List String) : Bool :=
  (List.range below.length).all fun i =>
    !s.isSkipped root (below.take (i + 1)) (i + 1 < below.length)

/-- The names of a path below another. -/
def below? (root entry : List String) : Option (List String) :=
  if root.isPrefixOf entry ∧ root.length < entry.length then some (entry.drop root.length)
  else none

/-- The files to index below a root, in the order of their paths, each by the path that leads to it
from the root as it was named; `path` is the absolute path of the root. A root that is a file is
listed itself, and there is nothing below a root that is missing. Links below the root are neither
listed nor followed. -/
def files (s : FileSearch) (path root : String) : List String :=
  match s.disk.lookup path with
  | .error _ => []
  | .ok (_, .file ..) => if s.hasExtension (Path.fileName path) then [root] else []
  | .ok (place, .directory _) =>
    s.disk.files.filterMap fun file =>
      (below? place (Path.segments file)).bind fun below =>
        if s.hasExtension (below.getLast?.getD "") && s.isReached place below then
          some (Path.join root (Text.joinWith "/" below))
        else none

end FileSearch
end PhpIndex
