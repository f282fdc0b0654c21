import PhpIndex.Bytes

/-!
# LZ4 blocks

A block is a sequence of parts, each a stretch of literal bytes and, except in the last, a copy
of bytes that were unpacked before. The half bytes of a part's first byte tell how many bytes
are literal and how many are copied; fifteen is continued in the bytes that follow. Packing
writes a single part, all literal.
-/
namespace PhpIndex.Lz4

/-- Continues a length: every 255 is followed by more. Answers the sum and what follows. -/
def readMore : Bytes → Option (Nat × Bytes)
  | [] => none
  | b :: rest =>
    if b = 255 then (readMore rest).map (fun (n, left) => (n + 255, left))
    else some (b.toNat, rest)

theorem length_of_readMore {input left : Bytes} {n : Nat} (h : readMore input = some (n, left)) :
    left.length < input.length := by
  induction input generalizing n with
  | nil => simp [readMore] at h
  | cons b rest ih =>
    unfold readMore at h
    split at h
    · simp only [Option.map_eq_some_iff, Prod.mk.injEq] at h
      obtain ⟨p, hp, -, rfl⟩ := h
      have := ih (n := p.1) hp
      simp only [List.length_cons]
      omega
    · simp only [Option.some.injEq, Prod.mk.injEq] at h
      simp [← h.2]

/-- A length from its half byte on. -/
def readLength (half : Nat) (input : Bytes) : Option (Nat × Bytes) :=
  if half = 15 then (readMore input).map (fun (n, left) => (n + 15, left))
  else some (half, input)

theorem length_of_readLength {half n : Nat} {input left : Bytes}
    (h : readLength half input = some (n, left)) : left.length ≤ input.length := by
  unfold readLength at h
  split at h
  · simp only [Option.map_eq_some_iff, Prod.mk.injEq] at h
    obtain ⟨p, hp, -, rfl⟩ := h
    exact Nat.le_of_lt (length_of_readMore (n := p.1) hp)
  · simp only [Option.some.injEq, Prod.mk.injEq] at h
    simp [h.2]

/-- Copies bytes from `distance` back, one at a time, so that a copy may run into itself. -/
def copyBack (out : Array UInt8) (distance : Nat) : Nat → Array UInt8
  | 0 => out
  | n + 1 => copyBack (out.push (out.getD (out.size - distance) 0)) distance n

/-- Unpacks the parts behind what is unpacked already. Fails where a length is cut off, a part
asks for more bytes than there are or than the room left, or a copy reaches back too far. -/
def unpackParts (room : Nat) (out : Array UInt8) : Bytes → Option (Array UInt8)
  | [] => none
  | token :: input =>
    match h₁ : readLength (token.toNat / 16) input with
    | none => none
    | some (literals, rest) =>
      if rest.length < literals || room < out.size + literals then none
      else
        let out := out ++ (rest.take literals).toArray
        match h₂ : rest.drop literals with
        | [] => some out
        | [_] => none
        | low :: high :: tail =>
          match h₃ : readLength (token.toNat % 16) tail with
          | none => none
          | some (more, tail) =>
            let distance := low.toNat + 256 * high.toNat
            let copied := more + 4
            if room < out.size + copied || out.size < distance then none
            else unpackParts room (copyBack out distance copied) tail
termination_by input => input.length
decreasing_by
  have a := length_of_readLength h₁
  have b := length_of_readLength h₃
  have c := congrArg List.length h₂
  simp only [List.length_drop, List.length_cons] at c ⊢
  omega

/-- Unpacks a block behind the size of what it holds, least significant byte first. -/
def unpack? (packed : Bytes) : Option Bytes :=
  if packed.length < 4 then none
  else
    (unpackParts (Bytes.littleEndian (packed.take 4)) #[] (packed.drop 4)).map Array.toList

/-- The bytes that continue a length of fifteen and `n` more. -/
def writeMore (n : Nat) : Bytes := List.replicate (n / 255) 255 ++ [.ofNat (n % 255)]

/-- A block of literal bytes behind their number. -/
def pack (raw : Bytes) : Bytes :=
  let length := raw.length
  let head :=
    if length < 15 then [UInt8.ofNat (length * 16)] else 0xF0 :: writeMore (length - 15)
  Bytes.ofLittleEndian 4 length ++ head ++ raw

end PhpIndex.Lz4
