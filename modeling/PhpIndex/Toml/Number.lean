import PhpIndex.Settings.Value
import PhpIndex.Text.Reader
import PhpIndex.Text.WholeNumber

/-!
# Numbers and times of TOML

Whole numbers of 64 bits, numbers with a fraction or an exponent, and dates and times. Only whole
numbers are given a value; the others are kept as they are spelled.
-/
namespace PhpIndex.Toml

open TextReader

/-- Digits with single underscores between them. -/
def digits (base : Nat) : TextReader (List Char) := do
  let first ← charWhere (isDigitOf base)
  let rest ← many do
    if ← accept "_" then some <$> charWhere (isDigitOf base)
    else
      match ← peek? with
      | some c => if isDigitOf base c then some <$> next else pure none
      | none => pure none
  pure (first :: rest)

/-- Decimal digits without a zero in front. -/
def wholeDigits : TextReader (List Char) := do
  if ← accept "0" then pure ['0'] else digits 10

def sign : TextReader (List Char) := do
  if ← accept "-" then pure ['-']
  else if ← accept "+" then pure ['+']
  else pure []

/-- A whole number, in decimal digits with a sign or in those of another base without one. -/
def integer : TextReader Int := do
  let value ←
    if ← accept "0x" then (ofDigits 16 · : List Char → Int) <$> digits 16
    else if ← accept "0o" then (ofDigits 8 · : List Char → Int) <$> digits 8
    else if ← accept "0b" then (ofDigits 2 · : List Char → Int) <$> digits 2
    else
      let s ← sign
      let n : Int := ofDigits 10 (← wholeDigits)
      pure (if s = ['-'] then -n else n)
  if -0x8000000000000000 ≤ value ∧ value < 0x8000000000000000 then pure value else failure

/-- Whether `n` times ten to the power of `scale` is nearer to infinity than to any number that a
double holds: it lies no less than half a step above the largest of them. -/
def exceedsDouble (n : Nat) (scale : Int) : Bool :=
  let limit := (Nat.pow 2 54 - 1) * Nat.pow 2 970
  let places := (Nat.repr n).length + scale
  if n = 0 ∨ places < 300 then false
  else if 320 < places then true
  else if 0 ≤ scale then limit ≤ n * Nat.pow 10 scale.toNat
  else limit * Nat.pow 10 (-scale).toNat ≤ n

/-- The exponent of a number, as it is spelled. -/
def exponent : TextReader (List Char) := do
  let mark ← charWhere (fun c => c = 'e' || c = 'E')
  let s ← sign
  pure (mark :: s ++ (← digits 10))

def fraction : TextReader (List Char) := do
  expect '.'
  digits 10

/-- A number with a fraction or an exponent. One that is too large fails; one that is too small
does not. -/
def decimal : TextReader String := do
  let s ← sign
  let whole ← wholeDigits
  let part ← optional fraction
  let power ← if part.isSome then optional exponent else some <$> exponent
  let scale : Int := match power.getD [] with
    | _ :: '-' :: e => -(ofDigits 10 e)
    | _ :: '+' :: e => ofDigits 10 e
    | _ :: e => ofDigits 10 e
    | [] => 0
  let fractional := part.getD []
  if s ≠ ['-'] ∧ exceedsDouble (ofDigits 10 (whole ++ fractional)) (scale - fractional.length)
  then failure
  let spelled := s ++ whole ++ (part.map ('.' :: ·)).getD [] ++ power.getD []
  pure (String.ofList spelled)

/-- Infinity, or what is no number at all. -/
def nonFinite : TextReader String := do
  let s ← sign
  if ← accept "inf" then pure (String.ofList (s ++ ['i', 'n', 'f']))
  else if ← accept "nan" then pure (String.ofList (s ++ ['n', 'a', 'n']))
  else failure

/-! ## Dates and times -/

def isDecimal (c : Char) : Bool := isDigitOf 10 c

/-- A number of two digits within bounds. -/
def twoDigits (low high : Nat) : TextReader (List Char) := do
  let digits ← takeExactly isDecimal 2
  let n := ofDigits 10 digits
  if low ≤ n ∧ n ≤ high then pure digits else failure

def daysInMonth (year month : Nat) : Nat :=
  let leap := year % 4 = 0 ∧ (year % 100 ≠ 0 ∨ year % 400 = 0)
  if month = 2 then (if leap then 29 else 28)
  else if month = 4 ∨ month = 6 ∨ month = 9 ∨ month = 11 then 30
  else 31

def date : TextReader (List Char) := do
  let year ← takeExactly isDecimal 4
  expect '-'
  let month ← twoDigits 1 12
  expect '-'
  let day ← twoDigits 1 (daysInMonth (ofDigits 10 year) (ofDigits 10 month))
  pure (year ++ '-' :: month ++ '-' :: day)

def secondFraction : TextReader (List Char) := do
  expect '.'
  pure ('.' :: (← takeSome isDecimal))

def time : TextReader (List Char) := do
  let hour ← twoDigits 0 23
  expect ':'
  let minute ← twoDigits 0 59
  expect ':'
  let second ← twoDigits 0 60
  let part ← optional secondFraction
  pure (hour ++ ':' :: minute ++ ':' :: second ++ part.getD [])

/-- How far a time lies from that of Greenwich. -/
def zone : TextReader (List Char) := do
  if ← accept "Z" then pure ['Z']
  else if ← accept "z" then pure ['Z']
  else
    let direction ← charWhere (fun c => c = '+' || c = '-')
    let hour ← twoDigits 0 23
    expect ':'
    pure (direction :: hour ++ ':' :: (← twoDigits 0 59))

def timeOfDay : TextReader (List Char) := do
  let _ ← charWhere (fun c => c = 'T' || c = 't' || c = ' ')
  let t ← time
  pure ('T' :: t ++ (← optional zone).getD [])

def moment : TextReader String := do
  let spelled ← (do
    let d ← date
    pure (d ++ (← optional timeOfDay).getD [])) <|> time
  pure (String.ofList spelled)

/-- Under this name stands a date or time, which is a table with this entry alone. -/
def momentKey : String := "moment"

/-- A number or a time. -/
def number : TextReader ConfigValue :=
  (do let m ← moment; pure (.table [(momentKey, .text m)])) <|>
  (do let d ← decimal; pure (.float d)) <|>
  (do let n ← nonFinite; pure (.float n)) <|>
  (do let n ← integer; pure (.integer n))

end PhpIndex.Toml
