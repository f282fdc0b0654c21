/-!
# Format errors

Why bytes are no record or no key of the formats of this library.
-/
namespace PhpIndex

inductive FlagSet where
  | modifier
  | visibility
  deriving DecidableEq

namespace FlagSet

def name : FlagSet → String
  | .modifier => "modifier"
  | .visibility => "visibility"

end FlagSet

inductive KeyFault where
  | unterminatedString
  | danglingEscape
  | badEscape
  | truncatedInteger
  | trailingBytes
  | noSeparator
  deriving DecidableEq

namespace KeyFault

def message : KeyFault → String
  | .unterminatedString => "unterminated string"
  | .danglingEscape => "dangling escape"
  | .badEscape => "bad escape"
  | .truncatedInteger => "truncated integer"
  | .trailingBytes => "trailing bytes"
  | .noSeparator => "name index key without separator"

end KeyFault

inductive FormatError where
  | unexpectedEnd (needed remaining : Nat)
  | invalidUtf8
  | invalidBool (value : UInt8)
  | unknownTag (tag : UInt32)
  | tagMismatch (expected found : UInt32)
  | unknownReferenceKind (code : UInt32)
  | unknownFlags (set : FlagSet) (bits : UInt32)
  | trailingBytes (count : Nat)
  | invalidKey (fault : KeyFault)
  deriving DecidableEq

/-- A number in base sixteen, behind a mark and with at least two digits where asked. -/
def hexText (leastDigits n : Nat) : String :=
  let digits := Nat.toDigits 16 n
  "0x" ++ String.ofList (List.replicate (leastDigits - digits.length) '0' ++ digits)

namespace FormatError

def message : FormatError → String
  | .unexpectedEnd needed remaining =>
    "Invalid encoding: needed " ++ toString needed ++ " bytes but only " ++ toString remaining ++
      " remain"
  | .invalidUtf8 => "Invalid encoding: string is not valid UTF-8"
  | .invalidBool value => "Invalid encoding: boolean byte " ++ hexText 2 value.toNat
  | .unknownTag tag => "Invalid encoding: unknown record tag " ++ toString tag.toNat
  | .tagMismatch expected found =>
    "Invalid encoding: expected record tag " ++ toString expected.toNat ++ ", found " ++
      toString found.toNat
  | .unknownReferenceKind code =>
    "Invalid encoding: unknown reference kind " ++ toString code.toNat
  | .unknownFlags set bits =>
    "Invalid encoding: unknown " ++ set.name ++ " bits " ++ hexText 1 bits.toNat
  | .trailingBytes count =>
    "Invalid encoding: " ++ toString count ++ " trailing bytes after record"
  | .invalidKey fault => "Invalid key encoding: " ++ fault.message

end FormatError
end PhpIndex
