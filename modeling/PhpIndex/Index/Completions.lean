import PhpIndex.Index.Words
import PhpIndex.Record.Document
import PhpIndex.Store.Table

/-!
# Completion index

Which names are reached by typing the beginning of a word. A row stands under the class of a
member (nothing for other names), an at sign, one word in lower case, the document and the name,
and holds the last two.
-/
namespace PhpIndex

structure CompletionIndex where
  table : Table
  deriving DecidableEq

namespace CompletionIndex

/-- What the key of a word begins with. -/
def wordKey (scope word : String) : Bytes := Bytes.ofText (scope ++ "@" ++ word)

def key (scope word uri name : String) : Bytes :=
  wordKey scope word ++ [0] ++ Bytes.ofText uri ++ [0] ++ Bytes.ofText name

/-- Enters a name under all words of what users type for it. -/
def put (x : CompletionIndex) (scope typed uri name : String) : Batch :=
  let entry := toRecord (⟨uri, name⟩ : CompletionEntry)
  (Words.indexed typed).map (fun word => x.table.put (key scope word uri name) entry)

def delete (x : CompletionIndex) (scope typed uri name : String) : Batch :=
  (Words.indexed typed).map (fun word => x.table.delete (key scope word uri name))

/-- Up to `room` entries of the rows that are not among those found, newest first. -/
def collect (room : Nat) (found : List CompletionEntry) :
    List Row → Except FormatError (List CompletionEntry)
  | [] => .ok found.reverse
  | row :: rest =>
    if room = 0 then .ok found.reverse
    else
      match ofRecord row.2 with
      | .error e => .error e
      | .ok entry =>
        if entry ∈ found then collect room found rest
        else collect (room - 1) (entry :: found) rest

/-- The first `limit` entries under words that begin with the keyword, each once. -/
def search (x : CompletionIndex) (scope keyword : String) (limit : Nat) :
    Query (List CompletionEntry) := do
  let lead := wordKey scope (Text.lower keyword)
  let rows ← x.table.scan lead
  Query.ofFormat (collect limit [] rows)

end CompletionIndex
end PhpIndex
