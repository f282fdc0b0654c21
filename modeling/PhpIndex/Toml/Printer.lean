import PhpIndex.Text.Cut
import PhpIndex.Toml.Text

/-!
# Printing TOML

Strings, lists and assignments as they are written into a settings file. A string is written
without escapes where there is a way to do so.
-/
namespace PhpIndex.Toml

/-- The longest stretch of a character. -/
def longestRun (c : Char) (s : List Char) : Nat := go 0 0 s
where
  go (best current : Nat) : List Char → Nat
    | [] => max best current
    | d :: rest => if d = c then go best (current + 1) rest else go (max best current) 0 rest

/-- Control characters can only be written with an escape, the tab and the line feed aside. -/
def needsEscape (c : Char) : Bool := !isPlain c && c ≠ '\n'

def upperHexDigit (n : Nat) : Char := (Nat.digitChar n).toUpper

def codeEscape (c : Char) : List Char :=
  let n := c.toNat
  ['\\', 'u', '0', '0', upperHexDigit (n / 16), upperHexDigit (n % 16)]

/-- A character between double quotes. On several lines a line feed stands for itself. -/
def escapeChar (lines : Bool) (c : Char) : List Char :=
  match c with
  | '\x08' => ['\\', 'b']
  | '\t' => ['\\', 't']
  | '\n' => if lines then ['\n'] else ['\\', 'n']
  | '\x0c' => ['\\', 'f']
  | '\r' => ['\\', 'r']
  | '\\' => ['\\', '\\']
  | '"' => if lines then ['"'] else ['\\', '"']
  | c => if isPlain c then [c] else codeEscape c

/-- On several lines the third of three double quotes is escaped. -/
def escapeLines (quotes : Nat) : List Char → List Char
  | [] => []
  | '"' :: rest =>
    if quotes < 2 then '"' :: escapeLines (quotes + 1) rest
    else '\\' :: '"' :: escapeLines 0 rest
  | c :: rest => escapeChar true c ++ escapeLines 0 rest

def quote (s : String) : String :=
  let chars := s.toList
  let newLine := chars.contains '\n'
  let codes := chars.any needsEscape
  let escapes := codes || chars.contains '\\'
  let singles := longestRun '\'' chars
  let doubles := longestRun '"' chars
  let opening := if newLine then "\n" else ""
  let basic := "\"" ++ String.ofList (chars.flatMap (escapeChar false)) ++ "\""
  let basicLines := "\"\"\"" ++ opening ++ String.ofList (escapeLines 0 chars) ++ "\"\"\""
  if !escapes && doubles = 0 && !newLine then basic
  else if !codes && singles = 0 && !newLine then "'" ++ s ++ "'"
  else if !escapes && doubles ≤ 2 then basicLines
  else if !codes && singles ≤ 2 then "'''" ++ opening ++ s ++ "'''"
  else if newLine then basicLines
  else basic

/-- A list of several items has a line for each of them. -/
def quoteList : List String → String
  | [] => "[]"
  | [s] => "[" ++ quote s ++ "]"
  | items => "[\n" ++ String.join (items.map (fun s => "    " ++ quote s ++ ",\n")) ++ "]"

def printBool (b : Bool) : String := if b then "true" else "false"

def printAssignment (key value : String) : String := key ++ " = " ++ value ++ "\n"

/-- A header with its assignments, after a blank line. -/
def printSection (name : String) (assignments : List (String × String)) : String :=
  "\n[" ++ name ++ "]\n" ++ String.join (assignments.map (fun a => printAssignment a.1 a.2))

end PhpIndex.Toml
