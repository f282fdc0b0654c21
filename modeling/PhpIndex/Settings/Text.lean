import PhpIndex.Settings.Layers
import PhpIndex.Toml.Printer

/-!
# Settings as text

The settings file that holds given settings, and how it is written into a new workspace.
-/
namespace PhpIndex.Settings

/-- The largest number that a settings file can hold. -/
def numberLimit : UInt64 := 0x7FFFFFFFFFFFFFFF

/-- The settings as the text of a settings file, unless a number in them is too large for it. -/
def toText? (s : Settings) : Option String :=
  if s.indexing.maxConcurrentFiles ≤ numberLimit ∧ s.completion.limit ≤ numberLimit then
    let root := s.workspaceRoot?.toList.map (fun root => ("workspace_root", Toml.quote root))
    let top :=
      ("version", toString s.version.toNat) :: root ++ [("debug", Toml.printBool s.debug)]
    some (String.join (top.map (fun a => Toml.printAssignment a.1 a.2)) ++
      Toml.printSection "index"
        [("path", Toml.quote s.index.path), ("persist", Toml.printBool s.index.persist)] ++
      Toml.printSection "indexing"
        [("extensions", Toml.quoteList s.indexing.extensions),
         ("ignore_patterns", Toml.quoteList s.indexing.ignorePatterns),
         ("max_concurrent_files", toString s.indexing.maxConcurrentFiles.toNat)] ++
      Toml.printSection "completion" [("limit", toString s.completion.limit.toNat)])
  else none

end PhpIndex.Settings
