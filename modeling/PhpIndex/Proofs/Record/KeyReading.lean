import PhpIndex.Proofs.Store.KeyOrder
import PhpIndex.Proofs.Store.Keys

/-!
# Reading tuple keys

Reading a key goes through its bytes once: a plain byte or an escape at each turn up to the end
of the text, then four bytes for each number. What stands in front of the place where reading
ends is the escaped form of what was read, so bytes that are read as a tuple are the key of that
tuple, and each fault tells in which way all other bytes leave this form.
Main statement: `keys_read_exactly`.
-/
namespace PhpIndex

/-- Bytes are those of the number that they make up. -/
theorem Bytes.ofUInt32_of_bytes (a b c d : UInt8) : ofUInt32 (toUInt32 a b c d) = [a, b, c, d] := by
  have ha := a.toNat_lt
  have hb := b.toNat_lt
  have hc := c.toNat_lt
  have hd := d.toNat_lt
  have hvalue : (toUInt32 a b c d).toNat =
      ((a.toNat * 256 + b.toNat) * 256 + c.toNat) * 256 + d.toNat := by
    simp only [toUInt32, UInt32.toNat_ofNat']
    omega
  have hbyte {n : Nat} {x : UInt8} (h : n % 256 = x.toNat) : UInt8.ofNat n = x := by
    rw [← UInt8.toNat_inj, UInt8.toNat_ofNat']
    exact h
  simp only [ofUInt32, hvalue]
  rw [hbyte (x := a) (by omega), hbyte (x := b) (by omega), hbyte (x := c) (by omega),
    hbyte (x := d) (by omega)]

namespace Key

/-! ## Turns of the reader -/

/-- What one turn of reading a text leads to. -/
inductive Turn where
  | byte (b : UInt8) (left : Bytes)
  | finish (outcome : Except KeyFault Unit) (left : Bytes)

/-- Takes a plain byte, an escaped zero or the end of the text from the bytes of a key. -/
def turn : Bytes → Turn
  | [] => .finish (.error .unterminatedString) []
  | b :: rest =>
    if b ≠ 0 then .byte b rest
    else
      match rest with
      | [] => .finish (.error .danglingEscape) []
      | marker :: rest =>
        if marker = 255 then .byte 0 rest
        else if marker = 1 then .finish (.ok ()) rest
        else .finish (.error .badEscape) rest

/-- Reads a text behind what was read before, if no more than so many turns are needed. -/
def readTurns : Nat → Bytes → Bytes → Option (Except KeyFault Bytes × Bytes)
  | 0, _, _ => none
  | turns + 1, before, key =>
    match turn key with
    | .byte b left => readTurns turns (before ++ [b]) left
    | .finish outcome left => some (outcome.map fun _ => before, left)

/-- What a turn has taken is gone from the key. -/
theorem length_lt_of_turn {key left : Bytes} {b : UInt8} (h : turn key = .byte b left) :
    left.length < key.length := by
  unfold turn at h
  split at h
  next => cases h
  next first rest =>
    split at h
    · cases h
      exact Nat.lt_succ_self _
    · split at h
      next => cases h
      next marker rest =>
        split at h
        · cases h
          exact Nat.lt_succ_of_lt (Nat.lt_succ_self _)
        · split at h <;> cases h

theorem unescape_eq (key : Bytes) : unescape key =
    match turn key with
    | .byte b left => ((unescape left).1.map (b :: ·), (unescape left).2)
    | .finish outcome left => (outcome.map fun _ => [], left) := by
  match key with
  | [] => rfl
  | b :: rest =>
    by_cases hb : b = 0
    · subst hb
      match rest with
      | [] => rfl
      | marker :: rest =>
        by_cases hnul : marker = 255
        · subst hnul
          rfl
        · by_cases hend : marker = 1
          · subst hend
            rfl
          · simp [unescape, turn, hnul, hend, Except.map]
    · rw [unescape.eq_def, turn.eq_def]
      simp only [if_pos hb]

/-- Reading ends within one turn more than there are bytes. -/
theorem readTurns_eq (extra : Nat) (before key : Bytes) :
    readTurns (key.length + 1 + extra) before key =
      some ((unescape key).1.map (before ++ ·), (unescape key).2) := by
  induction hlength : key.length using Nat.strongRecOn generalizing extra before key with
  | _ n ih =>
    have hturns : n + 1 + extra = (n + extra) + 1 := by omega
    rw [hturns, readTurns, unescape_eq]
    cases hturn : turn key with
    | byte b left =>
      have hlt := length_lt_of_turn hturn
      have hrest := ih left.length (hlength ▸ hlt) (n + extra - (left.length + 1))
        (before ++ [b]) left rfl
      have hleft : left.length + 1 + (n + extra - (left.length + 1)) = n + extra := by omega
      rw [hleft] at hrest
      simp only [hrest]
      cases (unescape left).1 <;> simp [Except.map]
    | finish outcome left =>
      cases outcome <;> simp [Except.map]

/-! ## What has been read -/

/-- Behind the escaped form of some bytes reading goes on with these bytes in front. -/
theorem unescape_escape_append (text rest : Bytes) :
    unescape (escape text ++ rest) = ((unescape rest).1.map (text ++ ·), (unescape rest).2) := by
  induction text with
  | nil =>
    rw [escape, List.nil_append]
    cases h : (unescape rest).1 <;> simp [Prod.ext_iff, h, Except.map]
  | cons b text ih =>
    have hhead : turn (escape (b :: text) ++ rest) = .byte b (escape text ++ rest) := by
      by_cases hb : b = 0 <;> simp [escape, turn, hb]
    rw [unescape_eq, hhead]
    simp only [ih]
    cases (unescape rest).1 <;> simp [Except.map]

/-- Up to the place where its bytes end, or a zero is followed by something else than 255, a key
is the escaped form of some bytes. -/
theorem exists_escape (key : Bytes) : ∃ text tail, key = escape text ++ tail ∧
    (tail = [] ∨ tail = [0] ∨ ∃ marker rest, marker ≠ 255 ∧ tail = 0 :: marker :: rest) := by
  induction hlength : key.length using Nat.strongRecOn generalizing key with
  | _ n ih =>
    match key with
    | [] => exact ⟨[], [], rfl, .inl rfl⟩
    | b :: rest =>
      by_cases hb : b = 0
      · match rest with
        | [] => exact ⟨[], [0], by rw [hb]; rfl, .inr (.inl rfl)⟩
        | marker :: rest =>
          by_cases hnul : marker = 255
          · obtain ⟨text, tail, hrest, hends⟩ := ih rest.length (by simp at hlength; omega) rest rfl
            exact ⟨0 :: text, tail, by rw [hb, hnul, hrest]; rfl, hends⟩
          · exact ⟨[], 0 :: marker :: rest, by rw [hb]; rfl, .inr (.inr ⟨marker, rest, hnul, rfl⟩)⟩
      · obtain ⟨text, tail, hrest, hends⟩ := ih rest.length (by simp at hlength; omega) rest rfl
        exact ⟨b :: text, tail, by rw [hrest, escape, if_neg hb, List.cons_append], hends⟩

theorem readText_ofText (s : String) (rest : Bytes) :
    readText (ofText s ++ rest) = (.ok s, rest) := by
  rw [ofText, List.append_assoc, List.cons_append, List.singleton_append, readText,
    unescape_escape]
  simp only [Bytes.toText?_ofText]

/-- Four bytes are the key of a number. -/
theorem exists_ofInt {bytes : Bytes} (h : 4 ≤ bytes.length) :
    ∃ n rest, bytes = ofInt n ++ rest := by
  obtain ⟨a, b, c, d, rest, rfl⟩ : ∃ a b c d rest, bytes = a :: b :: c :: d :: rest := by
    match bytes, h with
    | a :: b :: c :: d :: rest, _ => exact ⟨a, b, c, d, rest, rfl⟩
  refine ⟨(Bytes.toUInt32 a b c d ^^^ 0x80000000).toInt32, rest, ?_⟩
  rw [ofInt, UInt32.toUInt32_toInt32, UInt32.xor_assoc, UInt32.xor_self, UInt32.xor_zero,
    Bytes.ofUInt32_of_bytes]
  rfl

theorem readInt_of_length_lt {bytes : Bytes} (h : bytes.length < 4) :
    readInt bytes = (.error (.invalidKey .truncatedInteger), bytes) := by
  match bytes, h with
  | [], _ | [_], _ | [_, _], _ | [_, _, _], _ => rfl

/-! ## Keys and all other bytes -/

/-- The ways in which bytes are the key of no text and two numbers, with the faults that tell
them: the text does not end, or with a zero of no meaning, or is no UTF-8, or the numbers behind
it are too short, or more follows them. -/
inductive Malformed : FormatError → Bytes → Prop where
  | unterminated (text : Bytes) : Malformed (.invalidKey .unterminatedString) (escape text)
  | dangling (text : Bytes) : Malformed (.invalidKey .danglingEscape) (escape text ++ [0])
  | badEscape (text : Bytes) (marker : UInt8) (rest : Bytes) (hnul : marker ≠ 255)
      (hend : marker ≠ 1) :
      Malformed (.invalidKey .badEscape) (escape text ++ 0 :: marker :: rest)
  | notText (text rest : Bytes) (h : ∀ s, Bytes.ofText s ≠ text) :
      Malformed .invalidUtf8 (escape text ++ 0 :: 1 :: rest)
  | truncated (s : String) (numbers : Bytes) (h : numbers.length < 8) :
      Malformed (.invalidKey .truncatedInteger) (ofText s ++ numbers)
  | trailing (s : String) (a b : Int32) (rest : Bytes) (h : rest ≠ []) :
      Malformed (.invalidKey .trailingBytes) (ofTuple s a b ++ rest)

theorem toTuple?_ofText_append (s : String) (rest : Bytes) : toTuple? (ofText s ++ rest) =
    match readInt rest with
    | (.error e, _) => .error e
    | (.ok a, left) =>
      match readInt left with
      | (.error e, _) => .error e
      | (.ok b, left) =>
        if left.isEmpty then .ok (s, a, b) else .error (.invalidKey .trailingBytes) := by
  rw [toTuple?, readText_ofText]
  cases hfirst : readInt rest with
  | mk first left =>
    cases first with
    | error e => simp [hfirst, bind, Except.bind]
    | ok a =>
      cases hsecond : readInt left with
      | mk second left =>
        cases second <;>
          simp [hfirst, hsecond, bind, Except.bind, pure, Except.pure, throw, throwThe,
            MonadExceptOf.throw]

theorem toTuple?_ofTuple_append (s : String) (a b : Int32) (rest : Bytes) :
    toTuple? (ofTuple s a b ++ rest) =
      if rest.isEmpty then .ok (s, a, b) else .error (.invalidKey .trailingBytes) := by
  rw [ofTuple, List.append_assoc, List.append_assoc, toTuple?_ofText_append, readInt_ofInt]
  simp only [readInt_ofInt]

theorem toTuple?_of_readText {key : Bytes} {e : FormatError} (left : Bytes)
    (h : readText key = (.error e, left)) : toTuple? key = .error e := by
  rw [toTuple?, h]
  rfl

theorem toTuple?_of_malformed {key : Bytes} {e : FormatError} (h : Malformed e key) :
    toTuple? key = .error e := by
  cases h with
  | unterminated text =>
    have hread := unescape_escape_append text []
    rw [List.append_nil] at hread
    refine toTuple?_of_readText [] ?_
    rw [readText, hread]
    rfl
  | dangling text =>
    refine toTuple?_of_readText [] ?_
    rw [readText, unescape_escape_append]
    rfl
  | badEscape text marker rest hnul hend =>
    refine toTuple?_of_readText rest ?_
    have htail : unescape (0 :: marker :: rest) = (.error .badEscape, rest) := by
      simp [unescape, hnul, hend]
    rw [readText, unescape_escape_append, htail]
    rfl
  | notText text rest h =>
    refine toTuple?_of_readText rest ?_
    rw [readText, unescape_escape]
    cases htext : Bytes.toText? text with
    | none => simp only [htext]
    | some s => exact absurd (Bytes.eq_ofText_of_toText? htext).symm (h s)
  | truncated s numbers h =>
    rw [toTuple?_ofText_append]
    by_cases hfirst : numbers.length < 4
    · rw [readInt_of_length_lt hfirst]
    · obtain ⟨a, rest, rfl⟩ := exists_ofInt (Nat.le_of_not_lt hfirst)
      have hrest : rest.length < 4 := by
        have hfour : (ofInt a).length = 4 := rfl
        rw [List.length_append, hfour] at h
        omega
      rw [readInt_ofInt]
      simp only [readInt_of_length_lt hrest]
  | trailing s a b rest h =>
    rw [toTuple?_ofTuple_append, if_neg (by simpa using h)]

/-- All bytes that are no key are malformed in one of these ways. -/
theorem ofTuple_or_malformed (key : Bytes) :
    (∃ s a b, key = ofTuple s a b) ∨ ∃ e, Malformed e key := by
  obtain ⟨text, tail, rfl, hends⟩ := exists_escape key
  rcases hends with rfl | rfl | ⟨marker, rest, hnul, rfl⟩
  · rw [List.append_nil]
    exact .inr ⟨_, .unterminated text⟩
  · exact .inr ⟨_, .dangling text⟩
  by_cases hend : marker ≠ 1
  · exact .inr ⟨_, .badEscape text marker rest hnul hend⟩
  obtain rfl := Decidable.of_not_not hend
  by_cases htext : ∃ s, Bytes.ofText s = text
  case neg => exact .inr ⟨_, .notText text rest fun s hs => htext ⟨s, hs⟩⟩
  obtain ⟨s, rfl⟩ := htext
  have hkey : escape (Bytes.ofText s) ++ 0 :: 1 :: rest = ofText s ++ rest := by simp [ofText]
  rw [hkey]
  by_cases hshort : rest.length < 8
  · exact .inr ⟨_, .truncated s rest hshort⟩
  have hfirst : 4 ≤ rest.length := by omega
  obtain ⟨a, behind, rfl⟩ := exists_ofInt hfirst
  have hsecond : 4 ≤ behind.length := by
    have hfour : (ofInt a).length = 4 := rfl
    rw [List.length_append, hfour] at hshort
    omega
  obtain ⟨b, behind, rfl⟩ := exists_ofInt hsecond
  have htuple : ofText s ++ (ofInt a ++ (ofInt b ++ behind)) = ofTuple s a b ++ behind := by
    simp [ofTuple]
  rw [htuple]
  by_cases hbehind : behind = []
  · exact .inl ⟨s, a, b, by rw [hbehind, List.append_nil]⟩
  · exact .inr ⟨_, .trailing s a b behind hbehind⟩

theorem toTuple?_ofTuple (s : String) (a b : Int32) : toTuple? (ofTuple s a b) = .ok (s, a, b) := by
  have h := toTuple?_ofTuple_append s a b []
  rwa [List.append_nil] at h

theorem toTuple?_eq_ok_iff {key : Bytes} {s : String} {a b : Int32} :
    toTuple? key = .ok (s, a, b) ↔ key = ofTuple s a b := by
  constructor
  · intro hread
    rcases ofTuple_or_malformed key with ⟨s', a', b', rfl⟩ | ⟨e, hmalformed⟩
    · rw [toTuple?_ofTuple] at hread
      cases hread
      rfl
    · rw [toTuple?_of_malformed hmalformed] at hread
      cases hread
  · rintro rfl
    exact toTuple?_ofTuple s a b

theorem toTuple?_eq_error_iff {key : Bytes} {e : FormatError} :
    toTuple? key = .error e ↔ Malformed e key := by
  refine ⟨fun hread => ?_, toTuple?_of_malformed⟩
  rcases ofTuple_or_malformed key with ⟨s, a, b, rfl⟩ | ⟨e', hmalformed⟩
  · rw [toTuple?_ofTuple] at hread
    cases hread
  · rw [toTuple?_of_malformed hmalformed] at hread
    cases hread
    exact hmalformed

end Key

/-- Reading accepts just the bytes that are the key of a tuple, as this tuple, whatever characters
its text has; all other bytes are refused, with the fault that tells what is wrong with them.
Whatever the bytes are, the loop over the text ends within one turn more than there are bytes. -/
theorem keys_read_exactly :
    (∀ key s a b, Key.toTuple? key = .ok (s, a, b) ↔ key = Key.ofTuple s a b) ∧
    (∀ key, (∃ e, Key.toTuple? key = .error e) ↔ ∀ s a b, key ≠ Key.ofTuple s a b) ∧
    (∀ key e, Key.toTuple? key = .error e ↔ Key.Malformed e key) ∧
    ∀ key extra, Key.readTurns (key.length + 1 + extra) [] key = some (Key.unescape key) := by
  refine ⟨fun key s a b => Key.toTuple?_eq_ok_iff, fun key => ?_,
    fun key e => Key.toTuple?_eq_error_iff, fun key extra => ?_⟩
  · constructor
    · rintro ⟨e, hread⟩ s a b rfl
      rw [Key.toTuple?_ofTuple] at hread
      cases hread
    · intro hother
      rcases Key.ofTuple_or_malformed key with ⟨s, a, b, hkey⟩ | ⟨e, hmalformed⟩
      · exact absurd hkey (hother s a b)
      · exact ⟨e, Key.toTuple?_of_malformed hmalformed⟩
  · rw [Key.readTurns_eq]
    cases h : (Key.unescape key).1 <;> simp [Prod.ext_iff, h, Except.map]

end PhpIndex
