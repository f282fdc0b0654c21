import PhpIndex.Toml.Number
import PhpIndex.Toml.Table
import PhpIndex.Toml.Text

/-!
# Documents of TOML

The lines of a settings file: assignments, headers of tables, blank lines and comments.
Main definition: `Toml.parse?`, the table that a text stands for.
-/
namespace PhpIndex.Toml

open TextReader

/-- How deep values may lie within each other, and how many keys a path may have. -/
def nestingLimit : Nat := 79

def isBareKeyChar (c : Char) : Bool := c.isAlphanum || c = '_' || c = '-'

def key : TextReader String := do
  match ← peek? with
  | some '"' => lineText '"'
  | some '\'' => lineText '\''
  | _ => String.ofList <$> takeSome isBareKeyChar

/-- Keys with dots between them, and blanks around each. -/
def keyPath : TextReader (List String) := do
  let path ← separated '.' do
    blanks
    let k ← key
    blanks
    pure k
  if path.length ≤ nestingLimit then pure path else failure

/-- An assignment, whose value stands on the line of its keys. -/
def assignment (value : TextReader ConfigValue) : TextReader Assignment := do
  let path ← keyPath
  expect '='
  blanks
  pure ⟨path, ← value⟩

def array (value : TextReader ConfigValue) : TextReader ConfigValue := do
  expect '['
  let items ← listUntil ']' blankLines do
    let item ← value
    blankLines
    pure item
  pure (.list items)

/-- A table on one line. No comma may stand behind its last entry. -/
def inlineTable (value : TextReader ConfigValue) : TextReader ConfigValue := do
  expect '\x7b'
  blanks
  if ← accept "\x7d" then pure (.table [])
  else
    let assignments ← separated ',' do
      let a ← assignment value
      blanks
      pure a
    expect '\x7d'
    let table ← tableOf assignments
    pure table

def boolean : TextReader Bool := do
  if ← accept "true" then pure true
  else if ← accept "false" then pure false
  else failure

/-- A value in which others may lie so deep. -/
def value : Nat → TextReader ConfigValue
  | 0 => plain
  | depth + 1 => do
    match ← peek? with
    | some '[' => array (value depth)
    | some '\x7b' => inlineTable (value depth)
    | _ => plain
where
  plain : TextReader ConfigValue := do
    match ← peek? with
    | some '"' => .text <$> textIn '"'
    | some '\'' => .text <$> textIn '\''
    | some 't' => .bool <$> boolean
    | some 'f' => .bool <$> boolean
    | _ => number

def header : TextReader Header := do
  expect '['
  let oneOfMany ← accept "["
  let path ← keyPath
  expect ']'
  if oneOfMany then expect ']'
  pure ⟨path, oneOfMany⟩

inductive Line where
  | blank
  | header (h : Header)
  | assignment (a : Assignment)

/-- The next line; none at the end of the text. -/
def line : TextReader (Option Line) := do
  blanks
  match ← peek? with
  | none => pure none
  | some c =>
    let content ←
      if c = '#' ∨ c = '\n' ∨ c = '\r' then pure Line.blank
      else if c = '[' then Line.header <$> header
      else Line.assignment <$> assignment (value nestingLimit)
    lineEnd
    pure (some content)

/-- The assignments before the first header, and the sections of the headers. -/
def sectionsOf : List Line → List Assignment × List Section
  | [] => ([], [])
  | line :: rest =>
    let (assignments, sections) := sectionsOf rest
    match line with
    | .blank => (assignments, sections)
    | .header h => ([], ⟨h, assignments⟩ :: sections)
    | .assignment a => (a :: assignments, sections)

/-- The table of a text. A mark of the byte order may stand in front. -/
def parse? (text : String) : Option ConfigValue := do
  let reader : TextReader (List Line) := do
    let _ ← accept "\ufeff"
    many line
  let (assignments, sections) := sectionsOf (← reader.whole text)
  documentOf assignments sections

end PhpIndex.Toml
