import PhpIndex.Discovery.GlobText
import PhpIndex.Disk.Basic

/-!
# Ignore rules

The lines of an ignore file. A rule applies to the paths below the directory of its file, and of
all rules of a file that match a path the last one decides.
-/
namespace PhpIndex

inductive Verdict where
  | excluded
  | included
  deriving DecidableEq

structure IgnoreRule where
  glob : Glob
  verdict : Verdict
  directoriesOnly : Bool
  deriving DecidableEq

namespace IgnoreRule

/-- The glob for a rule without its marks. Without a separator the rule holds in every
directory; two stars at the end mean everything in a directory but not the directory itself. -/
def globText (anchored : Bool) (body : String) : String :=
  let everywhere := !anchored && !body.contains '/'
  let isEverywhere := Text.startsWith "**/" body || body = "**"
  let body := if everywhere && !isEverywhere then "**/" ++ body else body
  if Text.endsWith "/**" body then body ++ "/*" else body

/-- A rule behind its mark for what is included after all. -/
def ofBody? (openClass : Bool) (verdict : Verdict) (anchored : Bool) (body : String) :
    Option IgnoreRule :=
  let (body, directoriesOnly) :=
    match Text.beforeTail? "/" body with
    | some name => ((Text.beforeTail? "\\" name).getD name, true)
    | none => (body, false)
  (GlobText.parse? openClass (globText anchored body)).map fun glob =>
    ⟨glob, verdict, directoriesOnly⟩

/-- Reads a line. Comments, blank lines and faulty globs are no rules. Blanks at the end do not
count unless the last one is escaped. -/
def ofLine? (openClass : Bool) (line : String) : Option IgnoreRule :=
  if Text.startsWith "#" line then none
  else
    let line := if Text.endsWith "\\ " line then line else Text.trimEnd Text.isBlank line
    if line.isEmpty then none
    else if Text.startsWith "\\!" line || Text.startsWith "\\#" line then
      ofBody? openClass .excluded false ((Text.afterLead? "\\" line).getD "")
    else
      let (verdict, body) :=
        match Text.afterLead? "!" line with
        | some body => (Verdict.included, body)
        | none => (Verdict.excluded, line)
      match Text.afterLead? "/" body with
      | some body => ofBody? openClass verdict true body
      | none => ofBody? openClass verdict false body

def applies (r : IgnoreRule) (path : String) (isDirectory : Bool) : Bool :=
  (isDirectory || !r.directoriesOnly) && r.glob.matchesPath path

end IgnoreRule

namespace IgnoreRules

/-- What the last rule says that matches a path relative to the directory of the rules. -/
def verdict? (rules : List IgnoreRule) (path : String) (isDirectory : Bool) : Option Verdict :=
  (rules.reverse.find? (fun r => r.applies path isDirectory)).map IgnoreRule.verdict

/-- The lines of a file up to the first one that is no text. -/
def linesOf (content : Bytes) : List String :=
  ((split content).map Bytes.toText?).takeWhile Option.isSome |>.filterMap (·.map withoutReturn)
where
  split : Bytes → List Bytes
    | [] => [[]]
    | b :: rest =>
      if b = 0x0A then [] :: split rest
      else
        match split rest with
        | [] => [[b]]
        | line :: lines => (b :: line) :: lines
  withoutReturn (line : String) : String := (Text.beforeTail? "\r" line).getD line

/-- The rules of a file. A byte order mark in front of the first line does not count. -/
def ofFile (content : Bytes) : List IgnoreRule :=
  match linesOf content with
  | [] => []
  | first :: more =>
    let first := Text.trimStart (· == '\uFEFF') first
    (first :: more).filterMap (IgnoreRule.ofLine? true)

/-- The rules that exclude what matches any of the patterns. -/
def ofPatterns (patterns : List String) : List IgnoreRule :=
  patterns.filterMap fun pattern =>
    (IgnoreRule.ofLine? false ("!" ++ pattern)).map fun rule => { rule with verdict := .excluded }

end IgnoreRules
end PhpIndex
