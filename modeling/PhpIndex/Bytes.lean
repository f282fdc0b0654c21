/-!
# Bytes

Byte strings as lists: the UTF-8 form of text, reading it back strictly or with replacement
characters, and unsigned numbers with the most or the least significant byte first.
Main statements: text and numbers are read back from what was written for them.
-/
namespace PhpIndex

abbrev Bytes := List UInt8

namespace Bytes

def ofText (s : String) : Bytes := s.toByteArray.data.toList

/-- The text that the bytes encode, if they are valid. -/
def toText? (b : Bytes) : Option String := String.fromUTF8? ⟨b.toArray⟩

@[simp] theorem toText?_ofText (s : String) : toText? (ofText s) = some s := by
  have h : (⟨(ofText s).toArray⟩ : ByteArray) = s.toByteArray := by simp [ofText]
  unfold toText?
  rw [h]
  unfold String.fromUTF8?
  split
  · simp [String.fromUTF8]
  next h => exact absurd s.isValidUTF8 h

/-- Text has one encoding. -/
theorem eq_ofText_of_toText? {b : Bytes} {s : String} (h : toText? b = some s) :
    b = ofText s := by
  unfold toText? String.fromUTF8? at h
  split at h
  · simp only [Option.some.injEq] at h
    subst h
    simp [String.fromUTF8, ofText]
  · simp at h

/-- Most significant byte first. -/
def ofUInt32 (n : UInt32) : Bytes :=
  let n := n.toNat
  [.ofNat (n / 0x1000000), .ofNat (n / 0x10000), .ofNat (n / 0x100), .ofNat n]

def toUInt32 (a b c d : UInt8) : UInt32 :=
  .ofNat (((a.toNat * 256 + b.toNat) * 256 + c.toNat) * 256 + d.toNat)

theorem ofUInt32_toUInt32 (n : UInt32) :
    ∃ a b c d, ofUInt32 n = [a, b, c, d] ∧ toUInt32 a b c d = n := by
  refine ⟨_, _, _, _, rfl, ?_⟩
  apply UInt32.toNat.inj
  have := n.toNat_lt
  simp only [toUInt32, UInt32.toNat_ofNat', UInt8.toNat_ofNat']
  omega

/-- Most significant byte first. -/
def ofUInt64 (n : UInt64) : Bytes :=
  ofUInt32 (.ofNat (n.toNat / 0x100000000)) ++ ofUInt32 (.ofNat n.toNat)

def toUInt64 (high low : UInt32) : UInt64 := .ofNat (high.toNat * 0x100000000 + low.toNat)

theorem toUInt64_halves (n : UInt64) :
    toUInt64 (.ofNat (n.toNat / 0x100000000)) (.ofNat n.toNat) = n := by
  apply UInt64.toNat.inj
  have := n.toNat_lt
  simp only [toUInt64, UInt64.toNat_ofNat', UInt32.toNat_ofNat']
  omega

/-- The number with the least significant byte first. -/
def littleEndian : Bytes → Nat
  | [] => 0
  | b :: rest => b.toNat + 256 * littleEndian rest

/-- The lowest `width` bytes of a number, least significant first. -/
def ofLittleEndian : Nat → Nat → Bytes
  | 0, _ => []
  | width + 1, n => .ofNat n :: ofLittleEndian width (n / 256)

theorem littleEndian_ofLittleEndian (width n : Nat) (h : n < Nat.pow 256 width) :
    littleEndian (ofLittleEndian width n) = n := by
  induction width generalizing n with
  | zero =>
    obtain rfl : n = 0 := Nat.lt_one_iff.1 h
    rfl
  | succ width ih =>
    have hw : n < 256 * Nat.pow 256 width := Nat.mul_comm _ _ ▸ h
    have hd : n / 256 < Nat.pow 256 width := Nat.div_lt_of_lt_mul hw
    simp only [ofLittleEndian, littleEndian, ih _ hd, UInt8.toNat_ofNat']
    omega

def isContinuation (b : UInt8) : Bool := 0x80 ≤ b && b ≤ 0xBF

/-- The bytes that may follow the first byte of a longer character. -/
def mayFollow (first second : UInt8) : Bool :=
  isContinuation second &&
    (first != 0xE0 || 0xA0 ≤ second) && (first != 0xED || second ≤ 0x9F) &&
    (first != 0xF0 || 0x90 ≤ second) && (first != 0xF4 || second ≤ 0x8F)

/-- The character of a first byte's payload and its continuation bytes. -/
def charOf (payload : Nat) (rest : Bytes) : Char :=
  Char.ofNat (rest.foldl (fun n b => n * 64 + b.toNat % 64) payload)

/-- Reads characters, each longest invalid beginning of one as a replacement character. -/
def lossyChars : Bytes → List Char
  | [] => []
  | a :: rest =>
    if a < 0x80 then Char.ofNat a.toNat :: lossyChars rest
    else if a < 0xC2 || 0xF4 < a then '\uFFFD' :: lossyChars rest
    else
      match rest with
      | [] => ['\uFFFD']
      | b :: rest₁ =>
        if !mayFollow a b then '\uFFFD' :: lossyChars (b :: rest₁)
        else if a < 0xE0 then charOf (a.toNat % 32) [b] :: lossyChars rest₁
        else
          match rest₁ with
          | [] => ['\uFFFD']
          | c :: rest₂ =>
            if !isContinuation c then '\uFFFD' :: lossyChars (c :: rest₂)
            else if a < 0xF0 then charOf (a.toNat % 16) [b, c] :: lossyChars rest₂
            else
              match rest₂ with
              | [] => ['\uFFFD']
              | d :: rest₃ =>
                if !isContinuation d then '\uFFFD' :: lossyChars (d :: rest₃)
                else charOf (a.toNat % 8) [b, c, d] :: lossyChars rest₃

def toTextLossy (b : Bytes) : String := String.ofList (lossyChars b)

/-- Two digits in base sixteen for each byte. -/
def toHex (b : Bytes) : String :=
  String.ofList (b.flatMap fun x =>
    [Nat.digitChar (x.toNat / 16), Nat.digitChar (x.toNat % 16)])

/-- The value of a digit in base sixteen, zero for other characters. -/
def hexDigitValue (c : Char) : Nat :=
  if c.isDigit then c.toNat - '0'.toNat
  else if 'a' ≤ c && c ≤ 'f' then c.toNat - 'a'.toNat + 10
  else 0

def ofHexDigits : List Char → Bytes
  | high :: low :: rest => .ofNat (hexDigitValue high * 16 + hexDigitValue low) :: ofHexDigits rest
  | _ => []

/-- The bytes written as pairs of small digits in base sixteen. -/
def ofHex (s : String) : Bytes := ofHexDigits s.toList

end Bytes
end PhpIndex
