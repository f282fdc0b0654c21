import PhpIndex.Record.Reader
import PhpIndex.Record.Writer

/-!
# Reading fields back

A reader takes a piece of bytes if it reads a value from it and stops right behind it, whatever
follows. Pieces are taken one after the other, so the layout of a record is read back field by
field. Main statements: each field is taken by its reader, as long as its length has 32 bits.
-/
namespace PhpIndex.Reader

/-- Reads the value from exactly these bytes and leaves what follows. -/
def Takes (r : Reader α) (bytes : Bytes) (a : α) : Prop :=
  ∀ rest, r.run (bytes ++ rest) = (.ok a, rest)

theorem Takes.pure (a : α) : Takes (Pure.pure a) [] a := fun _ => rfl

theorem Takes.bind {r : Reader α} {next : α → Reader β} {first second : Bytes} {a : α} {b : β}
    (h : Takes r first a) (hnext : Takes (next a) second b) :
    Takes (r >>= next) (first ++ second) b := by
  intro rest
  rw [List.append_assoc, run_bind_ok (h _)]
  exact hnext rest

/-- Bytes behind which nothing more is read. -/
theorem Takes.ending {r : Reader α} {next : α → Reader β} {bytes : Bytes} {a : α} {b : β}
    (h : Takes r bytes a) (hnext : next a = Pure.pure b) : Takes (r >>= next) bytes b := by
  intro rest
  rw [run_bind_ok (h rest), hnext]
  rfl

/-- The last field of a layout, which what was read is made of. -/
theorem Takes.last {r : Reader α} {f : α → β} {bytes : Bytes} {a : α} (h : Takes r bytes a) :
    Takes (r >>= fun a => Pure.pure (f a)) bytes (f a) := h.ending rfl

theorem Takes.map {r : Reader α} {bytes : Bytes} {a : α} (f : α → β) (h : Takes r bytes a) :
    Takes (f <$> r) bytes (f a) := h.last

theorem takes_take (bytes : Bytes) : Takes (take bytes.length) bytes bytes := by
  intro rest
  have h : ¬ (bytes ++ rest).length < bytes.length := by simp
  simp only [run, take, if_neg h, List.take_left, List.drop_left]

/-- Bytes of a known number, from which the value is made without reading on. -/
theorem takes_fixed (bytes : Bytes) {next : Bytes → Reader α} {a : α}
    (h : next bytes = Pure.pure a) : Takes (take bytes.length >>= next) bytes a :=
  (takes_take bytes).ending h

theorem takes_word (n : UInt32) : Takes word (Write.word n) n := by
  obtain ⟨a, b, c, d, hbytes, hn⟩ := Bytes.ofUInt32_toUInt32 n
  rw [Write.word, hbytes, ← hn]
  exact takes_fixed [a, b, c, d] rfl

theorem takes_time (t : Int64) : Takes time (Write.time t) t := by
  obtain ⟨a, b, c, d, hhigh, hhighValue⟩ :=
    Bytes.ofUInt32_toUInt32 (.ofNat (t.toUInt64.toNat / 0x100000000))
  obtain ⟨e, f, g, h, hlow, hlowValue⟩ := Bytes.ofUInt32_toUInt32 (.ofNat t.toUInt64.toNat)
  have hbytes : Write.time t = [a, b, c, d, e, f, g, h] := by
    rw [Write.time, Bytes.ofUInt64, hhigh, hlow]
    rfl
  have hvalue : (Bytes.toUInt64 (Bytes.toUInt32 a b c d) (Bytes.toUInt32 e f g h)).toInt64 = t := by
    rw [hhighValue, hlowValue, Bytes.toUInt64_halves]
    simp
  rw [hbytes, ← hvalue]
  exact takes_fixed [a, b, c, d, e, f, g, h] rfl

theorem takes_bool (b : Bool) : Takes bool (Write.bool b) b := by
  cases b with
  | false => exact takes_fixed [0] rfl
  | true => exact takes_fixed [1] rfl

theorem toNat_ofNat_of_lt {n : Nat} (h : n < UInt32.size) : (UInt32.ofNat n).toNat = n := by
  rw [UInt32.toNat_ofNat']
  exact Nat.mod_eq_of_lt h

theorem takes_text {s : String} (h : (Bytes.ofText s).length < UInt32.size) :
    Takes text (Write.text s) s := by
  refine (takes_word _).bind ?_
  rw [toNat_ofNat_of_lt h]
  refine takes_fixed _ ?_
  rw [Bytes.toText?_ofText]

theorem takes_optional {read : Reader β} {write : α → Bytes} {f : α → β} {o : Option α}
    (h : ∀ a ∈ o, Takes read (write a) (f a)) :
    Takes (optional read) (Write.optional write o) (o.map f) := by
  cases o with
  | none => exact (takes_bool false).ending rfl
  | some a =>
    refine Takes.bind (takes_bool true) ?_
    exact (h a rfl).last

theorem takes_count {n least : Nat} {items : Bytes} (hn : n < UInt32.size)
    (hitems : n * least ≤ items.length) (rest : Bytes) :
    (count least).run (Write.count n ++ (items ++ rest)) = (.ok n, items ++ rest) := by
  have hword := takes_word (.ofNat n) (items ++ rest)
  have hfit : ¬ (items ++ rest).length < (UInt32.ofNat n).toNat * least := by
    rw [toNat_ofNat_of_lt hn, List.length_append]
    omega
  rw [count, Write.count, run_bind_ok hword, run_bind_ok (rfl : remaining.run _ = _)]
  rw [if_neg hfit, toNat_ofNat_of_lt hn]
  rfl

theorem takes_many {read : Reader β} {write : α → Bytes} {f : α → β} {items : List α}
    (h : ∀ a ∈ items, Takes read (write a) (f a)) :
    Takes (many read items.length) (items.flatMap write) (items.map f) := by
  induction items with
  | nil => exact Takes.pure []
  | cons a rest ih =>
    refine (h a List.mem_cons_self).bind ?_
    exact (ih fun b hb => h b (List.mem_cons_of_mem a hb)).last

theorem length_mul_le {write : α → Bytes} {least : Nat} {items : List α}
    (h : ∀ a ∈ items, least ≤ (write a).length) :
    items.length * least ≤ (items.flatMap write).length := by
  induction items with
  | nil => simp
  | cons a rest ih =>
    have hrest := ih fun b hb => h b (List.mem_cons_of_mem a hb)
    have ha := h a List.mem_cons_self
    simp only [List.length_cons, List.flatMap_cons, List.length_append, Nat.succ_mul]
    omega

/-- A list is read back item by item. The guard on its count lets it pass, because every item
takes at least the bytes that the guard asks for. -/
theorem takes_list {read : Reader β} {write : α → Bytes} {f : α → β} {items : List α}
    {least : Nat} (hlength : items.length < UInt32.size)
    (hleast : ∀ a ∈ items, least ≤ (write a).length)
    (h : ∀ a ∈ items, Takes read (write a) (f a)) :
    Takes (list least read) (Write.list write items) (items.map f) := by
  intro rest
  rw [Write.list, List.append_assoc, list,
    run_bind_ok (takes_count hlength (length_mul_le hleast) rest)]
  exact takes_many h rest

@[simp] theorem length_word (n : UInt32) : (Write.word n).length = 4 := rfl

theorem length_text (s : String) : 4 ≤ (Write.text s).length := by
  simp [Write.text, Write.count]

theorem takes_texts {items : List String} (hlength : items.length < UInt32.size)
    (h : ∀ s ∈ items, (Bytes.ofText s).length < UInt32.size) :
    Takes texts (Write.texts items) items := by
  have := takes_list (f := id) hlength (fun s _ => length_text s) fun s hs => takes_text (h s hs)
  rwa [List.map_id] at this

theorem takes_range (r : Range) : Takes range (Write.range r) r := by
  refine (takes_word r.start).bind ?_
  exact (takes_word r.stop).last

end PhpIndex.Reader
