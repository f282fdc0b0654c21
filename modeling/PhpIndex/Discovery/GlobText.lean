import PhpIndex.Discovery.Glob

/-!
# The text of globs

How a glob is written: question marks and stars, two stars for directories, classes of characters
in square brackets, alternatives in braces, and a backslash in front of a character that stands
for itself.
-/
namespace PhpIndex.GlobText

/-- What a bracket opens. -/
inductive ClassText where
  | unclosed
  /-- A range ends before it begins. -/
  | reversed
  | closed (ranges : List (Char × Char)) (rest : List Char)

/-- Reads the ranges of a class, the last one first. `afterDash` tells that a dash waits for the
end of its range. -/
def readRanges (isFirst afterDash : Bool) (ranges : List (Char × Char)) :
    List Char → ClassText
  | [] => .unclosed
  | c :: rest =>
    if c = ']' ∧ !isFirst then .closed (if afterDash then ('-', '-') :: ranges else ranges) rest
    else if c = '-' ∧ !isFirst ∧ !afterDash then readRanges false true ranges rest
    else
      match afterDash, ranges with
      | true, (low, _) :: others =>
        if c < low then .reversed else readRanges false false ((low, c) :: others) rest
      | _, _ => readRanges false false ((c, c) :: ranges) rest

theorem length_of_readRanges {isFirst afterDash : Bool} {ranges found : List (Char × Char)}
    {s rest : List Char} (h : readRanges isFirst afterDash ranges s = .closed found rest) :
    rest.length < s.length := by
  induction s generalizing isFirst afterDash ranges with
  | nil => simp [readRanges] at h
  | cons c s ih =>
    unfold readRanges at h
    split at h
    · simp only [ClassText.closed.injEq] at h
      simp [h.2]
    · split at h
      · exact Nat.lt_succ_of_lt (ih h)
      · split at h
        · split at h
          · simp at h
          · exact Nat.lt_succ_of_lt (ih h)
        · exact Nat.lt_succ_of_lt (ih h)

/-- The bytes that a range of characters stands for: a character of several bytes for each of
them, and a range for what lies between the last byte of its start and the first of its end. -/
def byteRanges (range : Char × Char) : List (UInt8 × UInt8) :=
  let low := Bytes.ofText (String.singleton range.1)
  let high := Bytes.ofText (String.singleton range.2)
  let single := fun (b : UInt8) => (b, b)
  if range.1 = range.2 then low.map single
  else
    low.dropLast.map single ++ [(low.getLast?.getD 0, high.head?.getD 0)] ++ high.tail.map single

/-- A class behind its opening bracket. -/
def readClass (s : List Char) : Bool × ClassText :=
  match s with
  | c :: rest =>
    if c = '!' ∨ c = '^' then (true, readRanges true false [] rest)
    else (false, readRanges true false [] s)
  | [] => (false, .unclosed)

theorem length_of_readClass {s rest : List Char} {outside : Bool} {found : List (Char × Char)}
    (h : readClass s = (outside, .closed found rest)) : rest.length < s.length := by
  cases s with
  | nil => simp [readClass] at h
  | cons c s =>
    unfold readClass at h
    simp only at h
    split at h <;> simp only [Prod.mk.injEq] at h
    · exact Nat.lt_succ_of_lt (length_of_readRanges h.2)
    · exact length_of_readRanges h.2

/-- What was read so far: the parts of the current branch, the last one first, the branches
before it, and the same for every group around. -/
structure Reading where
  parts : List Glob := []
  branches : List Glob := []
  around : List (List Glob × List Glob) := []
  previous? : Option Char := none
  /-- A bracket that was never closed makes all later ones plain characters. -/
  plainBrackets : Bool := false

namespace Reading

def push (r : Reading) (part : Glob) : Reading := { r with parts := part :: r.parts }

def pushChar (r : Reading) (c : Char) : Reading :=
  { r with
    parts := ((Bytes.ofText (String.singleton c)).map Glob.literal).reverse ++ r.parts
    previous? := some c }

def inGroup (r : Reading) : Bool := !r.around.isEmpty

def branch (r : Reading) : Glob := Glob.sequence r.parts.reverse

def openGroup (r : Reading) : Reading :=
  { r with parts := [], branches := [], around := (r.parts, r.branches) :: r.around }

def closeGroup? (r : Reading) : Option Reading :=
  match r.around with
  | [] => none
  | (parts, branches) :: around =>
    let group := Glob.choice (r.branches ++ [r.branch])
    some { r with parts := group :: parts, branches, around }

def nextBranch (r : Reading) : Reading :=
  { r with parts := [], branches := r.branches ++ [r.branch] }

/-- Two stars that mean no more than one. -/
def plainStars (r : Reading) (rest : List Char) : Reading × List Char :=
  ({ r.push .many with previous? := some '*' }, rest)

/-- Replaces the separator in front of two stars. Two stars in front of the pattern stay what
they are. -/
def directories (r : Reading) (part : Glob) : Reading :=
  match r.parts with
  | .leading :: _ => r
  | _ :: parts => { r with parts := part :: parts }
  | [] => r

/-- Two stars. They stand for directories at the front of a branch and between separators, and
for everything behind a separator at the end. -/
def stars (r : Reading) (rest : List Char) : Reading × List Char :=
  match r.parts, rest with
  | [], [] => (r.push .leading, [])
  | [], c :: more =>
    if c = '/' then ({ r.push .leading with previous? := some '/' }, more)
    else r.plainStars rest
  | _ :: _, _ =>
    if r.previous? ≠ some '/' then r.plainStars rest
    else
      match rest with
      | [] => (r.directories .trailing, [])
      | c :: more =>
        if c = '/' then ({ r.directories .between with previous? := some '/' }, more)
        else if r.inGroup ∧ (c = ',' ∨ c = '\x7d') then
          ({ r.directories .trailing with previous? := some '*' }, rest)
        else r.plainStars rest

theorem length_stars (r : Reading) (rest : List Char) : (r.stars rest).2.length ≤ rest.length := by
  unfold stars plainStars
  repeat' split
  all_goals simp

end Reading

/-- Reads a pattern. `openClass` tells that a bracket that is never closed stands for itself;
otherwise it is a fault, as are a group that is not closed or not opened, a range in reverse and
a backslash at the end. -/
def read (openClass : Bool) (r : Reading) (s : List Char) : Option Reading :=
  match s with
  | [] => some r
  | '?' :: rest => read openClass { r.push .any with previous? := some '?' } rest
  | '*' :: '*' :: rest =>
    have := r.length_stars rest
    read openClass (r.stars rest).1 (r.stars rest).2
  | '*' :: rest => read openClass { r.push .many with previous? := some '*' } rest
  | '[' :: rest =>
    if r.plainBrackets then read openClass (r.pushChar '[') rest
    else
      match h : readClass rest with
      | (_, .unclosed) =>
        if openClass then read openClass { r.pushChar '[' with plainBrackets := true } rest
        else none
      | (_, .reversed) => none
      | (outside, .closed ranges more) =>
        have := length_of_readClass h
        let part := Glob.byte outside (ranges.flatMap byteRanges)
        read openClass { r.push part with previous? := some ']' } more
  | '\x7b' :: rest => read openClass { r.openGroup with previous? := some '\x7b' } rest
  | '\x7d' :: rest =>
    match r.closeGroup? with
    | some r => read openClass { r with previous? := some '\x7d' } rest
    | none => none
  | ',' :: rest =>
    if r.inGroup then read openClass { r.nextBranch with previous? := some ',' } rest
    else read openClass (r.pushChar ',') rest
  | '\\' :: c :: rest => read openClass (r.pushChar c) rest
  | ['\\'] => none
  | c :: rest => read openClass (r.pushChar c) rest
termination_by s.length
decreasing_by all_goals simp_wf <;> omega

/-- The glob that a text spells. Two stars alone match everything. -/
def parse? (openClass : Bool) (text : String) : Option Glob :=
  match read openClass {} text.toList with
  | none => none
  | some r =>
    if r.inGroup then none
    else if r.branch = .leading then some .all
    else some r.branch

end PhpIndex.GlobText
