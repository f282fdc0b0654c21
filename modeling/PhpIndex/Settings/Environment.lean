import PhpIndex.Settings.Value
import PhpIndex.Text.Cut
import PhpIndex.Text.Lowering
import PhpIndex.Text.Reader
import PhpIndex.Text.WholeNumber

/-!
# Settings in the environment

Variables whose name begins with a mark are settings. Two underscores in the rest of a name lead
into a section. Values are written without quotes where that is clear: what is no truth value,
number, list or table is text.
-/
namespace PhpIndex.Environment

open TextReader

/-- The names and values of the variables. -/
abbrev Variables := List (String × String)

/-! ## Values -/

def isGap (c : Char) : Bool :=
  c = ' ' || c = '\t' || c = '\n' || c = '\r' || c = '\x0c'

def isWordChar (c : Char) : Bool :=
  !(c = ',' || c = '[' || c = ']' || c = '\x7b' || c = '\x7d')

/-- The characters of a string up to its closing quote, with their backslashes. -/
def rawText : TextReader (List Char) := fun s => some (go s)
where
  go : List Char → List Char × List Char
    | '\\' :: c :: rest => let (a, b) := go rest; ('\\' :: c :: a, b)
    | '"' :: rest => ([], '"' :: rest)
    | c :: rest => let (a, b) := go rest; (c :: a, b)
    | [] => ([], [])

/-- The character with the code of these hexadecimal digits. -/
def charOfCode? (digits : List Char) : Option Char :=
  let code := ofDigits 16 digits
  if digits.all (isDigitOf 16) ∧ code.isValidChar then some (Char.ofNat code) else none

/-- What a single character stands for behind a backslash. -/
def escape? : Char → Option Char
  | '"' => some '"'
  | '\\' => some '\\'
  | 'b' => some '\x08'
  | 'f' => some '\x0c'
  | 'n' => some '\n'
  | 'r' => some '\r'
  | 't' => some '\t'
  | _ => none

/-- Characters that need no escape. -/
def isPlain (c : Char) : Bool := c = '\t' || (c.toNat ≠ 127 && 32 ≤ c.toNat)

/-- A string without its backslashes. -/
def unescape : List Char → Option (List Char)
  | [] => some []
  | '\\' :: 'u' :: a :: b :: c :: d :: rest => do
    let first ← charOfCode? [a, b, c, d]
    pure (first :: (← unescape rest))
  | '\\' :: 'U' :: a :: b :: c :: d :: e :: f :: g :: h :: rest => do
    let first ← charOfCode? [a, b, c, d, e, f, g, h]
    pure (first :: (← unescape rest))
  | '\\' :: mark :: rest => do
    let first ← escape? mark
    pure (first :: (← unescape rest))
  | c :: rest => do
    if c = '\\' ∨ !isPlain c then none
    pure (c :: (← unescape rest))

def quoted : TextReader String := do
  expect '"'
  let content ← unescape (← rawText)
  expect '"'
  pure (String.ofList content)

/-- A single character between single quotes. -/
def character : TextReader String := do
  expect '\''
  let c ← next
  expect '\''
  pure (String.singleton c)

/-- Whether a text is a decimal number, with a point and maybe an exponent. -/
def isDecimal (s : String) : Bool := ((do
    let _ ← sign
    let before ← takeWhile (isDigitOf 10)
    expect '.'
    let behind ← takeWhile (isDigitOf 10)
    if before.isEmpty ∧ behind.isEmpty then failure
    let _ ← optional do
      let _ ← charWhere (fun c => c = 'e' || c = 'E')
      let _ ← sign
      takeSome (isDigitOf 10) : TextReader Unit).whole s).isSome
where
  sign : TextReader Bool := do
    if ← accept "+" then pure true else accept "-"

/-- What a word without quotes stands for. -/
def wordValue (word : String) : ConfigValue :=
  if isDecimal word then .float word
  else
    match parseNatural (UInt64.size - 1) word, parseNegative word with
    | .ok n, _ => .integer n
    | _, .ok n => .integer n
    | _, _ => .text word

def word : TextReader ConfigValue := do
  let chars ← takeWhile isWordChar
  pure (wordValue (Text.trimBlank (String.ofList chars)))

def key : TextReader String := do
  match ← peek? with
  | some '"' => quoted
  | _ => String.ofList <$> takeSome (fun c => c.isAlphanum || c = '_' || c = '-')

def entry (value : TextReader ConfigValue) : TextReader (String × ConfigValue) := do
  skipWhile isGap
  let k ← key
  skipWhile isGap
  expect '='
  pure (k, ← value)

/-- A value in which others may lie so deep. -/
def value : Nat → TextReader ConfigValue
  | 0 => failure
  | depth + 1 => do
    skipWhile isGap
    let v ←
      if ← accept "true" then pure (.bool true)
      else if ← accept "false" then pure (.bool false)
      else if ← accept "[" then .list <$> listUntil ']' (pure ()) (value depth)
      else if ← accept "\x7b" then
        let entries ← listUntil '\x7d' (pure ()) (entry (value depth))
        pure (.table (entries.foldl (fun l e => setEntry e.1 e.2 l) []))
      else
        match ← peek? with
        | some '"' => .text <$> quoted
        | some '\'' => .text <$> character
        | _ => word
    skipWhile isGap
    pure v

/-- The value of a variable. A text that cannot be read as anything else is taken as it is. -/
def valueOf (s : String) : ConfigValue := ((value (s.length + 1)).whole s).getD (.text s)

/-! ## Variables -/

/-- How the names of settings begin, in letters of either case. -/
def mark : String := "ps_"

/-- The rest of a text behind a beginning, whatever the case of its ASCII letters. -/
def afterMark? (name : String) : Option String :=
  if Text.startsWith mark (Text.lowerAscii name) then some (String.ofList (name.toList.drop mark.length))
  else none

/-- Two underscores are a dot. -/
def dotted : List Char → List Char
  | '_' :: '_' :: rest => '.' :: dotted rest
  | c :: rest => c :: dotted rest
  | [] => []

/-- The keys that lead to the setting of a variable. -/
def path? (name : String) : Option (List String) := do
  let rest ← afterMark? (Text.trimBlank name)
  let lower := String.ofList (dotted (Text.lower rest).toList)
  let keys := Text.splitAll '.' (Text.trimBlank lower)
  if keys.any String.isEmpty then none else some keys

/-- The settings of the variables, a later one over those before it. -/
def settings (environment : Variables) : ConfigValue :=
  environment.foldl
    (fun below v =>
      match path? v.1 with
      | some keys => below.coveredBy ((valueOf v.2).nested keys)
      | none => below)
    (.table [])

end PhpIndex.Environment
