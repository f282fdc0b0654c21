import PhpIndex.Text.CaseIgnorable
import PhpIndex.Text.LetterCase

/-!
# Lower case of whole texts

Every character is replaced by its lower-case form. A capital sigma has two of them: the final
one at the end of a word, the plain one elsewhere; a word ends where no cased character follows.
-/
namespace PhpIndex.Text

/-- Whether the next character that counts for case is cased. -/
def meetsCased (s : List Char) : Bool :=
  match s.dropWhile isCaseIgnorable with
  | c :: _ => isCased c
  | [] => false

/-- The lower-case form of a text, given what stands before it, nearest character first. -/
def lowerFrom (before : List Char) : List Char → List Char
  | [] => []
  | c :: rest =>
    let form :=
      if c = 'Σ' then
        if meetsCased before && !meetsCased rest then ['ς'] else ['σ']
      else lowerForm c
    form ++ lowerFrom (c :: before) rest

def lower (s : String) : String := String.ofList (lowerFrom [] s.toList)

end PhpIndex.Text
