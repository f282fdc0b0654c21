import PhpIndex.Record.Key
import PhpIndex.Store.Table

/-!
# Reading keys apart

Keys are made of texts with separators between them. A separator is an ASCII character, whose
byte occurs in no other character, so a text that does not hold it ends at the first such byte
and a key is made of one list of parts only.
Main statements: `cut_separator`, `Bytes.prefix_iff_ofText`.
-/
namespace PhpIndex

/-- Whether the text is without a zero character, which separates the parts of a key. -/
def NulFree (s : String) : Prop := '\x00' ∉ s.toList

instance : DecidablePred NulFree := fun _ => inferInstanceAs (Decidable (_ ∉ _))

/-- Whether the text is without an at sign, which separates a member from its class. -/
def AtFree (s : String) : Prop := '@' ∉ s.toList

instance : DecidablePred AtFree := fun _ => inferInstanceAs (Decidable (_ ∉ _))

namespace Bytes

theorem ofText_eq_flatMap (s : String) : ofText s = s.toList.flatMap String.utf8EncodeChar := by
  rw [ofText, ← String.utf8Encode_toList]
  simp [List.utf8Encode]

@[simp] theorem ofText_append (s t : String) : ofText (s ++ t) = ofText s ++ ofText t := by
  simp [ofText_eq_flatMap]

@[simp] theorem ofText_empty : ofText "" = [] := rfl

theorem ofText_inj {s t : String} (h : ofText s = ofText t) : s = t := by
  have := congrArg toText? h
  rwa [toText?_ofText, toText?_ofText, Option.some.injEq] at this

/-- Bytes below 128 are part of no character but the one of that code. -/
theorem le_of_mem_utf8EncodeChar {b : UInt8} {c : Char} (hc : ¬ c.val.toNat < 128)
    (h : b ∈ String.utf8EncodeChar c) : 128 ≤ b.toNat := by
  have hbyte (n m k : Nat) (hm : 0 < m) (hk : 128 ≤ k) (hmk : m + k ≤ 256) :
      128 ≤ (UInt8.ofNat (n % m + k)).toNat := by
    have := Nat.mod_lt n hm
    rw [UInt8.toNat_ofNat']
    omega
  unfold String.utf8EncodeChar at h
  simp only at h
  rw [if_neg (by omega)] at h
  split at h
  · simp only [List.mem_cons, List.not_mem_nil, or_false] at h
    rcases h with rfl | rfl <;> exact hbyte _ _ _ (by decide) (by decide) (by decide)
  · split at h
    · simp only [List.mem_cons, List.not_mem_nil, or_false] at h
      rcases h with rfl | rfl | rfl <;> exact hbyte _ _ _ (by decide) (by decide) (by decide)
    · simp only [List.mem_cons, List.not_mem_nil, or_false] at h
      rcases h with rfl | rfl | rfl | rfl <;>
        exact hbyte _ _ _ (by decide) (by decide) (by decide)

theorem utf8EncodeChar_of_lt {c : Char} (hc : c.val.toNat < 128) :
    String.utf8EncodeChar c = [UInt8.ofNat c.val.toNat] := by
  unfold String.utf8EncodeChar
  exact if_pos (by omega)

/-- An ASCII character is in a text just if its byte is in the bytes of the text. -/
theorem mem_ofText_iff {c : Char} (hc : c.val.toNat < 128) {s : String} :
    UInt8.ofNat c.val.toNat ∈ ofText s ↔ c ∈ s.toList := by
  rw [ofText_eq_flatMap, List.mem_flatMap]
  refine ⟨fun ⟨d, hd, hbyte⟩ => ?_, fun h => ⟨c, h, ?_⟩⟩
  · have hvalue : (UInt8.ofNat c.val.toNat).toNat = c.val.toNat := by
      rw [UInt8.toNat_ofNat']
      omega
    have hlt : d.val.toNat < 128 := by
      by_cases hd : d.val.toNat < 128
      · exact hd
      · have := le_of_mem_utf8EncodeChar hd hbyte
        omega
    rw [utf8EncodeChar_of_lt hlt, List.mem_singleton] at hbyte
    have heq := congrArg UInt8.toNat hbyte
    rw [hvalue, UInt8.toNat_ofNat', Nat.mod_eq_of_lt (by omega)] at heq
    rwa [Char.ext (UInt32.toNat.inj heq)]
  · rw [utf8EncodeChar_of_lt hc]
    exact List.mem_singleton_self _

theorem zero_not_mem {s : String} (h : NulFree s) : (0 : UInt8) ∉ ofText s :=
  mt (mem_ofText_iff (c := '\x00') (by decide)).1 h

theorem at_not_mem {s : String} (h : AtFree s) : (64 : UInt8) ∉ ofText s :=
  mt (mem_ofText_iff (c := '@') (by decide)).1 h

/-- No character's bytes begin those of another. -/
theorem utf8EncodeChar_append_inj {c d : Char} {a b : Bytes}
    (h : String.utf8EncodeChar c ++ a = String.utf8EncodeChar d ++ b) : c = d ∧ a = b := by
  have hdecode (c : Char) (a : Bytes) :
      (String.utf8EncodeChar c ++ a).toByteArray.utf8DecodeChar? 0 = some c := by
    rw [List.toByteArray_append]
    exact ByteArray.utf8DecodeChar?_utf8EncodeChar_append
  have hcd : c = d := by
    have := hdecode c a
    rw [h, hdecode, Option.some.injEq] at this
    exact this.symm
  subst hcd
  exact ⟨rfl, List.append_cancel_left h⟩

/-- One text begins another just if its bytes begin those of the other. -/
theorem prefix_iff_ofText {s t : String} : ofText s <+: ofText t ↔ s.toList <+: t.toList := by
  rw [ofText_eq_flatMap, ofText_eq_flatMap]
  generalize s.toList = cs
  generalize t.toList = ds
  refine ⟨fun h => ?_, fun ⟨rest, h⟩ => ?_⟩
  · induction cs generalizing ds with
    | nil => exact List.nil_prefix
    | cons c cs ih =>
      obtain ⟨tail, htail⟩ := h
      rw [List.flatMap_cons, List.append_assoc] at htail
      cases ds with
      | nil =>
        have hlength := congrArg List.length htail
        have := Char.utf8Size_pos c
        simp only [List.length_append, String.length_utf8EncodeChar, List.flatMap_nil,
          List.length_nil] at hlength
        omega
      | cons d ds =>
        rw [List.flatMap_cons] at htail
        obtain ⟨rfl, hrest⟩ := utf8EncodeChar_append_inj htail
        exact List.cons_prefix_cons.2 ⟨rfl, ih ds ⟨tail, hrest⟩⟩
  · rw [← h, List.flatMap_append]
    exact List.prefix_append _ _

end Bytes

section Separators
variable {sep : UInt8} {a b a' b' : Bytes}

/-- Both begin with the same part if neither part holds the separator behind it. -/
theorem cut_separator (ha : sep ∉ a) (ha' : sep ∉ a') (h : a ++ sep :: b <+: a' ++ sep :: b') :
    a = a' ∧ b <+: b' := by
  induction a generalizing a' with
  | nil =>
    cases a' with
    | nil => exact ⟨rfl, (List.cons_prefix_cons.1 h).2⟩
    | cons y a' =>
      obtain rfl := (List.cons_prefix_cons.1 h).1
      exact absurd List.mem_cons_self ha'
  | cons x a ih =>
    cases a' with
    | nil =>
      obtain rfl := (List.cons_prefix_cons.1 h).1
      exact absurd List.mem_cons_self ha
    | cons y a' =>
      obtain ⟨rfl, hrest⟩ := List.cons_prefix_cons.1 h
      obtain ⟨rfl, hb⟩ := ih (fun hx => ha (List.mem_cons_of_mem x hx))
        (fun hx => ha' (List.mem_cons_of_mem x hx)) hrest
      exact ⟨rfl, hb⟩

theorem cut_separator_eq (ha : sep ∉ a) (ha' : sep ∉ a') (h : a ++ sep :: b = a' ++ sep :: b') :
    a = a' ∧ b = b' := by
  have hbegins : a ++ sep :: b <+: a' ++ sep :: b' := h ▸ List.prefix_refl _
  obtain ⟨rfl, -⟩ := cut_separator ha ha' hbegins
  exact ⟨rfl, (List.cons_inj_right sep).1 (List.append_cancel_left h)⟩

/-- What is free of the separator and begins a key begins its first part. -/
theorem prefix_of_separator (ha : sep ∉ a) (h : a <+: a' ++ sep :: b') : a <+: a' := by
  by_cases hlength : a.length ≤ a'.length
  · exact List.prefix_of_prefix_length_le h (List.prefix_append _ _) hlength
  · have hlong : (a' ++ [sep]) <+: a := by
      have hbegins : a' ++ [sep] <+: a' ++ sep :: b' := ⟨b', by simp⟩
      refine List.prefix_of_prefix_length_le hbegins h ?_
      rw [List.length_append, List.length_singleton]
      omega
    exact absurd (hlong.subset (by simp)) ha

/-- Only one part of a key is followed by its only separator. -/
theorem eq_of_last_separator (ha' : sep ∉ a') (hb' : sep ∉ b')
    (h : a ++ [sep] <+: a' ++ sep :: b') :
    a = a' := by
  have hcount := h.sublist.count_le sep
  simp only [List.count_append, List.count_cons_self, List.count_nil, List.count_eq_zero.2 ha',
    List.count_eq_zero.2 hb'] at hcount
  have ha : sep ∉ a := List.count_eq_zero.1 (by omega)
  exact (cut_separator ha ha' h).1

end Separators

theorem joinKey_pair (s t : String) :
    joinKey [s, t] = Bytes.ofText s ++ 0 :: Bytes.ofText t := by
  simp [joinKey, List.intercalate]

namespace Key

theorem escape_of_zero_not_mem {b : Bytes} (h : (0 : UInt8) ∉ b) : escape b = b := by
  induction b with
  | nil => rfl
  | cons x b ih =>
    have hx : x ≠ 0 := fun e => h (e ▸ List.mem_cons_self)
    rw [escape, if_neg hx, ih fun hb => h (List.mem_cons_of_mem x hb)]

theorem ofText_of_nulFree {s : String} (h : NulFree s) :
    ofText s = Bytes.ofText s ++ 0 :: [1] := by
  rw [ofText, escape_of_zero_not_mem (Bytes.zero_not_mem h)]

theorem unescape_escape (b rest : Bytes) :
    unescape (escape b ++ 0 :: 1 :: rest) = (.ok b, rest) := by
  induction b with
  | nil => rfl
  | cons x b ih =>
    by_cases hx : x = 0
    · subst hx
      simp [escape, unescape, ih, Except.map]
    · rw [escape, if_neg hx, List.cons_append]
      unfold unescape
      simp [hx, ih, Except.map]

/-- No text begins a key that starts with another one. -/
theorem eq_of_ofText_prefix {s t : String} {k : Bytes} (hs : ofText s <+: k)
    (ht : ofText t <+: k) : s = t := by
  have hread {u : String} (hu : ofText u <+: k) : (unescape k).1 = .ok (Bytes.ofText u) := by
    obtain ⟨rest, rfl⟩ := hu
    rw [ofText, List.append_assoc, List.cons_append, List.singleton_append, unescape_escape]
  exact Bytes.ofText_inj (Except.ok.inj ((hread hs).symm.trans (hread ht)))

end Key
end PhpIndex
