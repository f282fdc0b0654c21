import PhpIndex.Bytes
import PhpIndex.OrderedMap
import PhpIndex.Text.Cut

/-!
# The disk

Files, directories and symbolic links by their absolute paths, and what reading and writing them
leads to. A path is followed name by name, so that it fails where a name on the way is missing or no
directory. A link on the way is followed to where it leads, and so is one at the end.
-/
namespace PhpIndex

/-- Why a file could not be read or written, in the words of the operating system. -/
inductive FileFault where
  | notFound
  | isDirectory
  | notDirectory
  | exists
  | notText
  | nameTooLong
  /-- A zero byte, which ends a name for the operating system. -/
  | zeroByte
  | tooManyLinks
  | other (text : String)
  deriving DecidableEq

namespace FileFault

def message : FileFault → String
  | .notFound => "No such file or directory (os error 2)"
  | .isDirectory => "Is a directory (os error 21)"
  | .notDirectory => "Not a directory (os error 20)"
  | .exists => "File exists (os error 17)"
  | .notText => "stream did not contain valid UTF-8"
  | .nameTooLong => "File name too long (os error 36)"
  | .zeroByte => "file name contained an unexpected NUL byte"
  | .tooManyLinks => "Too many levels of symbolic links (os error 40)"
  | .other text => text

end FileFault

/-! ## Paths

Paths of files as text, and the uris under which files are known as documents. -/

namespace Path

def isAbsolute (path : String) : Bool := Text.startsWith "/" path

/-- A path below a directory; an absolute path stands for itself. -/
def join (directory path : String) : String :=
  if isAbsolute path || directory.isEmpty then path
  else if Text.endsWith "/" directory then directory ++ path
  else directory ++ "/" ++ path

/-- The names on the way, without those that lead nowhere. -/
def segments (path : String) : List String :=
  (Text.splitAll '/' path).filter (fun s => !s.isEmpty && s ≠ ".")

/-- The absolute path through these names. -/
def ofSegments (segments : List String) : String := "/" ++ Text.joinWith "/" segments

/-- The last name. -/
def fileName (path : String) : String := Text.afterLast '/' path

/-- The part of a name behind its last dot. A dot in front does not count. -/
def extension? (name : String) : Option String :=
  match name.toList with
  | [] => none
  | first :: rest =>
    if '.' ∈ rest ∧ (first :: rest) ≠ ['.', '.'] then some (Text.afterLast '.' name) else none

/-- The uri of a file. -/
def toUri (cwd path : String) : String :=
  let absolute := join cwd path
  "file://" ++ String.ofList (absolute.toList.map (fun c => if c = '\\' then '/' else c))

/-- The path of a file's uri; none for uris of another scheme. -/
def ofUri? (uri : String) : Option String := Text.afterLead? "file://" uri

end Path

/-! ## Files, directories and links -/

/-- Times are seconds since the epoch. -/
inductive DiskEntry where
  | file (content : Bytes) (modified : Int64)
  | directory (modified : Int64)
  deriving DecidableEq

namespace DiskEntry

def modified : DiskEntry → Int64
  | .file _ modified => modified
  | .directory modified => modified

def isFile : DiskEntry → Bool
  | .file .. => true
  | .directory _ => false

end DiskEntry

/-- Where a link leads. No link is made with an empty path or one with a zero byte. -/
structure LinkTarget where
  path : String
  nonempty : path ≠ ""
  nulFree : '\x00' ∉ path.toList
  deriving DecidableEq

namespace LinkTarget

/-- Where the path is followed from; `directory` is that of the link. -/
def start (t : LinkTarget) (directory : List String) : List String :=
  if Path.isAbsolute t.path then [] else directory

/-- The names on the way. -/
def names (t : LinkTarget) : List String := Text.splitAll '/' t.path

end LinkTarget

/-- What has a path of its own. -/
inductive DiskNode where
  | entry (e : DiskEntry)
  | link (target : LinkTarget)
  deriving DecidableEq

namespace DiskNode

@[match_pattern] abbrev file (content : Bytes) (modified : Int64) : DiskNode :=
  .entry (.file content modified)

@[match_pattern] abbrev directory (modified : Int64) : DiskNode := .entry (.directory modified)

def isFile : DiskNode → Bool
  | .entry e => e.isFile
  | .link _ => false

end DiskNode

/-- The directory of all files is there without an entry. -/
structure Disk where
  entries : OrderedMap String DiskNode
  deriving DecidableEq

namespace Disk

def empty : Disk := ⟨.empty⟩

/-- What stands at the path through these names. -/
def node? (d : Disk) (segments : List String) : Option DiskNode :=
  if segments.isEmpty then some (.directory 0) else d.entries.get? (Path.ofSegments segments)

/-- The file or directory there. -/
def entry? (d : Disk) (segments : List String) : Option DiskEntry :=
  match d.node? segments with
  | some (.entry e) => some e
  | _ => none

/-- Where the link there leads, if it is one. -/
def link? (d : Disk) (segments : List String) : Option LinkTarget :=
  match d.node? segments with
  | some (.link target) => some target
  | _ => none

/-- The longest name that a file may have, in bytes. -/
def nameLimit : Nat := 255

/-- How many links may be read on one way. -/
def linkLimit : Nat := 40

/-- How far names lead without reading a link. -/
inductive Passage where
  | place (segments : List String)
  /-- To a link in a directory, in front of the names that are left. -/
  | link (directory : List String) (target : LinkTarget) (rest : List String)
  deriving DecidableEq

/-- Goes from a place to the first link. A name leads on from directories only, and two dots lead
back. -/
def walk (d : Disk) (at_ : List String) : List String → Except FileFault Passage
  | [] => .ok (.place at_)
  | name :: rest =>
    match d.entry? at_ with
    | none => .error .notFound
    | some (.file ..) => .error .notDirectory
    | some (.directory _) =>
      if name.isEmpty ∨ name = "." then walk d at_ rest
      else if name = ".." then walk d at_.dropLast rest
      else if nameLimit < name.utf8ByteSize then .error .nameTooLong
      else
        match d.link? (at_ ++ [name]) with
        | some target => .ok (.link at_ target rest)
        | none => walk d (at_ ++ [name]) rest

/-- Follows names from a place, through at most so many links. -/
def follow (d : Disk) (links : Nat) (at_ names : List String) : Except FileFault (List String) :=
  match d.walk at_ names, links with
  | .error fault, _ => .error fault
  | .ok (.place segments), _ => .ok segments
  | .ok (.link ..), 0 => .error .tooManyLinks
  | .ok (.link directory target rest), links + 1 =>
    follow d links (target.start directory) (target.names ++ rest)

/-- The names at the end of a path, whether or not there is something. -/
def resolve (d : Disk) (path : String) : Except FileFault (List String) :=
  if '\x00' ∈ path.toList then .error .zeroByte
  else if Path.isAbsolute path then d.follow linkLimit [] (Text.splitAll '/' path)
  else .error .notFound

/-- What a path leads to, with its place. -/
def lookup (d : Disk) (path : String) : Except FileFault (List String × DiskEntry) := do
  let segments ← d.resolve path
  match d.entry? segments with
  | some entry => .ok (segments, entry)
  | none => .error .notFound

/-- The absolute path without detours and links. -/
def canonical (d : Disk) (path : String) : Except FileFault String :=
  (d.lookup path).map (fun p => Path.ofSegments p.1)

def exists? (d : Disk) (path : String) : Bool := (d.lookup path).toOption.isSome

def isDirectory (d : Disk) (path : String) : Bool :=
  (d.lookup path).toOption.any (fun p => !p.2.isFile)

/-- When a file or directory was last changed. -/
def modified (d : Disk) (path : String) : Except FileFault Int64 :=
  (d.lookup path).map (fun p => p.2.modified)

def read (d : Disk) (path : String) : Except FileFault Bytes := do
  match ← d.lookup path with
  | (_, .file content _) => .ok content
  | (_, .directory _) => .error .isDirectory

def readText (d : Disk) (path : String) : Except FileFault String := do
  match Bytes.toText? (← d.read path) with
  | some text => .ok text
  | none => .error .notText

/-- Makes a directory and those above it, where they are missing. -/
def makeDirectories (d : Disk) (path : String) (now : Int64) : Except FileFault Disk :=
  if '\x00' ∈ path.toList then .error .zeroByte else make d [] (Path.segments path)
where
  make (d : Disk) (at_ : List String) : List String → Except FileFault Disk
    | [] => .ok d
    | name :: rest =>
      let next := if name = ".." then at_.dropLast else at_ ++ [name]
      match d.node? next with
      | some (.directory _) => make d next rest
      | some (.file ..) => .error (if rest.isEmpty then .exists else .notDirectory)
      | some (.link _) =>
        match d.lookup (Path.ofSegments next) with
        | .ok (place, .directory _) => make d place rest
        | .ok (_, .file ..) => .error (if rest.isEmpty then .exists else .notDirectory)
        | .error fault => .error (if rest.isEmpty ∨ fault = .notFound then .exists else fault)
      | none =>
        if nameLimit < name.utf8ByteSize then .error .nameTooLong
        else make ⟨d.entries.insert (Path.ofSegments next) (.directory now)⟩ next rest

/-- Writes a file whose directory is there. Through a link it writes what the link leads to. -/
def write (d : Disk) (path : String) (content : Bytes) (modified : Int64) :
    Except FileFault Disk := do
  let segments ← d.resolve path
  match d.entry? segments, d.entry? segments.dropLast with
  | some (.directory _), _ => .error .isDirectory
  | _, none => .error .notFound
  | _, some _ => .ok ⟨d.entries.insert (Path.ofSegments segments) (.file content modified)⟩

/-- Writes a file and makes the directories above it. -/
def writeWithParents (d : Disk) (path : String) (content : Bytes) (modified : Int64) :
    Except FileFault Disk := do
  let parents := Path.ofSegments (Path.segments path).dropLast
  (← d.makeDirectories parents modified).write path content modified

/-- Puts a new file in the place of a file or link, if there is one, and makes the directories above
it. What a link has led to stays. -/
def replace (d : Disk) (path : String) (content : Bytes) (modified : Int64) :
    Except FileFault Disk := do
  let parents := Path.ofSegments (Path.segments path).dropLast
  let d ← d.makeDirectories parents modified
  let place := (← d.resolve parents) ++ [Path.fileName path]
  match d.entry? place with
  | some (.directory _) => .error .isDirectory
  | _ => .ok ⟨d.entries.insert (Path.ofSegments place) (.file content modified)⟩

/-- All files, in the order of their paths. -/
def files (d : Disk) : List String :=
  d.entries.entries.filterMap (fun e => if e.2.isFile then some e.1 else none)

end Disk
end PhpIndex
