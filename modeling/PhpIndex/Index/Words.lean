import PhpIndex.Text.Cut
import PhpIndex.Text.Lowering

/-!
# Words of a name

A name is found by typing the beginning of any of its words: from the name as a whole, from
behind a run of underscores to the end of the name, or from a change of case to the next
underscore. `getUserName` is found under itself, `UserName` and `Name`.
-/
namespace PhpIndex.Words

/-- What follows each run of underscores. -/
def afterUnderscores : List Char → List (List Char)
  | a :: b :: rest =>
    if a = '_' ∧ b ≠ '_' then (b :: rest) :: afterUnderscores (b :: rest)
    else afterUnderscores (b :: rest)
  | _ => []

/-- A capital starts a word behind a small letter or a digit, and at the end of an acronym,
which is behind a capital and before a small letter. -/
def isCaseBoundary (before c : Char) (after? : Option Char) : Bool :=
  Text.isUpperCase c &&
    (Text.isLowerCase before || before.isDigit ||
      (Text.isUpperCase before && after?.any Text.isLowerCase))

/-- What follows each change of case. -/
def fromCapitals : List Char → List (List Char)
  | a :: b :: rest =>
    if isCaseBoundary a b rest.head? then (b :: rest) :: fromCapitals (b :: rest)
    else fromCapitals (b :: rest)
  | _ => []

/-- The words in order of discovery, each once: the name, then what follows underscores, then
within each stretch between underscores what follows a change of case. -/
def ofChars (name : List Char) : List (List Char) :=
  let found := name :: afterUnderscores name ++ (Chars.splitAll '_' name).flatMap fromCapitals
  (found.filter (fun w => !w.isEmpty)).eraseDups

def ofName (name : String) : List String := (ofChars name.toList).map String.ofList

/-- The words in lower case, under which a name is indexed. -/
def indexed (name : String) : List String := ((ofName name).map Text.lower).eraseDups

end PhpIndex.Words
