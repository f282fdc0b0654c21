import PhpIndex.Text.Reader
import PhpIndex.Text.WholeNumber

/-!
# Strings of TOML

Strings on one line and on several, with escapes between double quotes and without them between
single ones, and the blanks, comments and line ends around them.
-/
namespace PhpIndex.Toml

open TextReader

/-- Characters that may stand in strings and comments: no control characters but the tab. -/
def isPlain (c : Char) : Bool := c = '\t' || (32 ≤ c.toNat && c.toNat ≠ 127)

def isBlank (c : Char) : Bool := c = ' ' || c = '\t'

def blanks : TextReader Unit := skipWhile isBlank

/-- Takes a line feed, with a carriage return before it or without. -/
def acceptLineFeed : TextReader Bool := do
  if ← accept "\n" then pure true else accept "\r\n"

def acceptComment : TextReader Bool := do
  if ← accept "#" then
    skipWhile isPlain
    pure true
  else pure false

/-- Blanks, line feeds and comments. -/
def blankLines : TextReader Unit := do
  let _ ← many do
    if ← acceptComment then pure (some ())
    else if ← acceptLineFeed then pure (some ())
    else if ((← takeWhile isBlank)).isEmpty then pure none
    else pure (some ())

/-- The end of a line after its content. -/
def lineEnd : TextReader Unit := do
  blanks
  let _ ← acceptComment
  if ← acceptLineFeed then pure ()
  else if ← atEnd then pure ()
  else failure

/-- The character with the code of so many hexadecimal digits. -/
def charOfCode (digits : Nat) : TextReader Char := do
  let code := ofDigits 16 (← takeExactly (isDigitOf 16) digits)
  if code.isValidChar then pure (Char.ofNat code) else failure

/-- What the characters behind a backslash stand for. -/
def escaped : TextReader Char := do
  match ← next with
  | 'b' => pure '\x08'
  | 't' => pure '\t'
  | 'n' => pure '\n'
  | 'f' => pure '\x0c'
  | 'r' => pure '\r'
  | '"' => pure '"'
  | '\\' => pure '\\'
  | 'u' => charOfCode 4
  | 'U' => charOfCode 8
  | _ => failure

/-- A string on one line. Only between double quotes does a backslash escape. -/
def lineText (quote : Char) : TextReader String := do
  expect quote
  let content ← many do
    match ← peek? with
    | some c =>
      if c = '\\' ∧ quote = '"' then
        let _ ← next
        some <$> escaped
      else if isPlain c ∧ c ≠ quote then some <$> next
      else pure none
    | none => pure none
  expect quote
  pure (String.ofList content)

/-- A backslash at the end of a line, with all blanks and line feeds behind it. -/
def acceptJoinedLines : TextReader Bool := fun s =>
  match s with
  | '\\' :: rest =>
    let rest := rest.dropWhile isBlank
    match rest with
    | '\n' :: _ => some (true, rest.dropWhile isGap)
    | '\r' :: '\n' :: _ => some (true, skipLines rest)
    | _ => some (false, s)
  | _ => some (false, s)
where
  isGap (c : Char) : Bool := isBlank c || c = '\n'
  skipLines : List Char → List Char
    | '\r' :: '\n' :: rest => skipLines rest
    | c :: rest => if isGap c then skipLines rest else c :: rest
    | [] => []

/-- How many quotes come next. -/
def quotesAhead (quote : Char) : TextReader Nat := do
  pure ((← get).takeWhile (· == quote)).length

/-- A string on several lines, between three quotes and three quotes. One or two quotes belong to
the string, also right before its end, and a line feed right after its beginning does not. -/
def linesText (quote : Char) : TextReader String := do
  let _ ← takeExactly (· == quote) 3
  let _ ← acceptLineFeed
  let content ← many do
    if ← acceptLineFeed then pure (some ['\n'])
    else
      match ← peek? with
      | some c =>
        if c = quote then
          let quotes ← quotesAhead quote
          if quotes ≤ 2 then some <$> takeExactly (· == quote) quotes else pure none
        else if c = '\\' ∧ quote = '"' then
          if ← acceptJoinedLines then pure (some [])
          else
            let _ ← next
            some <$> ([·]) <$> escaped
        else if isPlain c then some <$> ([·]) <$> next
        else pure none
      | none => pure none
  let quotes ← quotesAhead quote
  let last ← takeExactly (· == quote) (min (quotes - 3) 2)
  let _ ← takeExactly (· == quote) 3
  pure (String.ofList (content.flatten ++ last))

def textIn (quote : Char) : TextReader String := do
  if (← quotesAhead quote) < 3 then lineText quote else linesText quote

end PhpIndex.Toml
