/-!
# Whole numbers as text

Digits and the numbers they stand for, and why a text is no number of the size asked for.
-/
namespace PhpIndex

/-- What a character stands for as a digit, be it one of base sixteen. -/
def digitValue? (c : Char) : Option Nat :=
  if '0' ≤ c ∧ c ≤ '9' then some (c.toNat - '0'.toNat)
  else if 'a' ≤ c ∧ c ≤ 'f' then some (c.toNat - 'a'.toNat + 10)
  else if 'A' ≤ c ∧ c ≤ 'F' then some (c.toNat - 'A'.toNat + 10)
  else none

def isDigitOf (base : Nat) (c : Char) : Bool := (digitValue? c).any (· < base)

/-- The number that digits stand for. Other characters count as zero. -/
def ofDigits (base : Nat) (digits : List Char) : Nat :=
  digits.foldl (fun n c => n * base + (digitValue? c).getD 0) 0

inductive NumberFault where
  | empty
  | noDigit
  | tooLarge
  | tooSmall
  deriving DecidableEq

namespace NumberFault

def message : NumberFault → String
  | .empty => "cannot parse integer from empty string"
  | .noDigit => "invalid digit found in string"
  | .tooLarge => "number too large to fit in target type"
  | .tooSmall => "number too small to fit in target type"

end NumberFault

/-- Reads decimal digits up to a limit. The first character that does not fit decides the
fault. -/
def readDigits (limit : Nat) (n : Nat) : List Char → Except NumberFault Nat
  | [] => .ok n
  | c :: rest =>
    if isDigitOf 10 c then
      let n := n * 10 + (digitValue? c).getD 0
      if limit < n then .error .tooLarge else readDigits limit n rest
    else .error .noDigit

/-- A natural number up to a limit, in decimal digits. A plus may stand before them. -/
def parseNatural (limit : Nat) (s : String) : Except NumberFault Nat :=
  match s.toList with
  | [] => .error .empty
  | '+' :: [] => .error .noDigit
  | '+' :: digits => readDigits limit 0 digits
  | digits => readDigits limit 0 digits

/-- A negative number that takes 64 bits. -/
def parseNegative (s : String) : Except NumberFault Int :=
  match s.toList with
  | '-' :: first :: rest =>
    match readDigits 0x8000000000000000 0 (first :: rest) with
    | .ok n => .ok (-n)
    | .error .tooLarge => .error .tooSmall
    | .error fault => .error fault
  | _ => .error .noDigit

end PhpIndex
