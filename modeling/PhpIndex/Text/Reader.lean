/-!
# Reading text

A reader takes characters off the front of a text and yields a value, or fails. Where it fails it
has taken nothing, so that another reader can be tried in its place.
-/
namespace PhpIndex

abbrev TextReader := StateT (List Char) Option

namespace TextReader

/-- What the whole text is read as, if the reader takes all of it. -/
def whole (r : TextReader α) (s : String) : Option α :=
  match r s.toList with
  | some (a, []) => some a
  | _ => none

def atEnd : TextReader Bool := do pure (← get).isEmpty

def peek? : TextReader (Option Char) := do pure (← get).head?

/-- One character of a kind. -/
def charWhere (p : Char → Bool) : TextReader Char
  | [] => none
  | c :: rest => if p c then some (c, rest) else none

def next : TextReader Char := charWhere (fun _ => true)

def expect (c : Char) : TextReader Unit := do let _ ← charWhere (· == c)

/-- Takes these characters if they come next, and tells whether they do. -/
def accept (word : String) : TextReader Bool := fun s =>
  if word.toList.isPrefixOf s then some (true, s.drop word.length) else some (false, s)

/-- The longest stretch of characters of a kind, which may be empty. -/
def takeWhile (p : Char → Bool) : TextReader (List Char) := fun s =>
  some (s.takeWhile p, s.dropWhile p)

def skipWhile (p : Char → Bool) : TextReader Unit := do let _ ← takeWhile p

/-- A stretch of characters of a kind, at least one of them. -/
def takeSome (p : Char → Bool) : TextReader (List Char) := do
  let first ← charWhere p
  pure (first :: (← takeWhile p))

/-- So many characters of a kind. -/
def takeExactly (p : Char → Bool) : Nat → TextReader (List Char)
  | 0 => pure []
  | n + 1 => do
    let first ← charWhere p
    pure (first :: (← takeExactly p n))

/-- Reads again and again until the reader yields nothing. Every reading before that must take a
character. -/
def many (r : TextReader (Option α)) : TextReader (List α) := fun s => go (s.length + 1) s
where
  go : Nat → TextReader (List α)
    | 0 => failure
    | n + 1 => do
      match ← r with
      | none => pure []
      | some a => pure (a :: (← go n))

/-- One or more readings with a separator between them. -/
def separated (separator : Char) (r : TextReader α) : TextReader (List α) := do
  let first ← r
  let rest ← many do
    if ← accept (String.singleton separator) then some <$> r else pure none
  pure (first :: rest)

/-- Items with commas between them, up to the closing character. A comma may stand behind the last
one. `skip` takes what may stand before an item or the end. -/
def listUntil (close : Char) (skip : TextReader Unit) (item : TextReader α) :
    TextReader (List α) := fun s => go (s.length + 1) s
where
  go : Nat → TextReader (List α)
    | 0 => failure
    | n + 1 => do
      skip
      if ← accept (String.singleton close) then pure []
      else
        let a ← item
        if ← accept "," then pure (a :: (← go n))
        else
          expect close
          pure [a]

end TextReader
end PhpIndex
