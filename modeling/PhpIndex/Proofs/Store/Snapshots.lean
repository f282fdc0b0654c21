import Mathlib.Algebra.Group.Nat.Defs
import PhpIndex.Store.Snapshot

/-!
# Snapshot files

A file is read just if it has the format: the header with the number of rows, and a block that
unpacks to so many keys and values, each behind its length. Every other file is refused with the
first fault that it has, from the front of the file to its end. The number of rows is only
believed as far as there are bytes: however large it is, reading stops after as many rounds as
the unpacked block has room for.
Main statement: `snapshots_read_exactly`.
-/
namespace PhpIndex

namespace Bytes

@[simp] theorem length_ofLittleEndian (width n : Nat) :
    (ofLittleEndian width n).length = width := by
  induction width generalizing n with
  | zero => rfl
  | succ width ih => rw [ofLittleEndian, List.length_cons, ih]

theorem littleEndian_lt (bytes : Bytes) : littleEndian bytes < 256 ^ bytes.length := by
  induction bytes with
  | nil => exact Nat.one_pos
  | cons b rest ih =>
    have hb := b.toNat_lt
    rw [littleEndian, List.length_cons, Nat.pow_succ]
    omega

theorem ofLittleEndian_littleEndian (bytes : Bytes) :
    ofLittleEndian bytes.length (littleEndian bytes) = bytes := by
  induction bytes with
  | nil => rfl
  | cons b rest ih =>
    have hb := b.toNat_lt
    have hlow : UInt8.ofNat (b.toNat + 256 * littleEndian rest) = b := by
      apply UInt8.toNat.inj
      rw [UInt8.toNat_ofNat']
      omega
    have hhigh : (b.toNat + 256 * littleEndian rest) / 256 = littleEndian rest := by omega
    rw [List.length_cons, littleEndian, ofLittleEndian, hlow, hhigh, ih]

end Bytes

/-! ## Keys and values -/

/-- Whether the lengths of the key and the value have 32 bits. -/
def Row.Fits (row : Row) : Prop := row.1.length < UInt32.size ∧ row.2.length < UInt32.size

instance : DecidablePred Row.Fits := fun _ => inferInstanceAs (Decidable (_ ∧ _))

namespace Snapshot
variable {raw rest bytes : Bytes} {pairs : List Row} {rows rows' : Rows} {count : Nat}

/-- What is read of a chunk is what was written for it. -/
theorem readChunk_eq_some_iff :
    readChunk raw = some (bytes, rest) ↔
      bytes.length < UInt32.size ∧ raw = writeChunk bytes ++ rest := by
  unfold readChunk writeChunk
  constructor
  · intro h
    split at h
    · cases h
    next hfour =>
      simp only at h
      split at h
      · cases h
      next hlong =>
        simp only [Option.some.injEq, Prod.mk.injEq] at h
        obtain ⟨rfl, rfl⟩ := h
        have hhead : (raw.take 4).length = 4 := by
          rw [List.length_take]
          omega
        have hlength : ((raw.drop 4).take (Bytes.littleEndian (raw.take 4))).length =
            Bytes.littleEndian (raw.take 4) := by
          rw [List.length_take]
          omega
        have hlt := Bytes.littleEndian_lt (raw.take 4)
        have hwritten := Bytes.ofLittleEndian_littleEndian (raw.take 4)
        rw [hhead] at hlt hwritten
        rw [hlength]
        refine ⟨hlt, ?_⟩
        rw [hwritten, List.append_assoc, List.take_append_drop, List.take_append_drop]
  · rintro ⟨hfits, rfl⟩
    have hhead : (Bytes.ofLittleEndian 4 bytes.length).length = 4 := Bytes.length_ofLittleEndian ..
    have hlength : Bytes.littleEndian (Bytes.ofLittleEndian 4 bytes.length) = bytes.length :=
      Bytes.littleEndian_ofLittleEndian 4 _ hfits
    have hfour : ¬ (Bytes.ofLittleEndian 4 bytes.length ++ (bytes ++ rest)).length < 4 := by simp
    have hlong : ¬ (bytes ++ rest).length < bytes.length := by simp
    rw [List.append_assoc, List.take_left' hhead, List.drop_left' hhead, hlength, if_neg hfour]
    simp only
    rw [if_neg hlong, List.take_left, List.drop_left]

theorem length_of_readChunk (h : readChunk raw = some (bytes, rest)) :
    rest.length + 4 ≤ raw.length := by
  obtain ⟨-, rfl⟩ := readChunk_eq_some_iff.1 h
  simp only [writeChunk, List.length_append, Bytes.length_ofLittleEndian]
  omega

theorem writeRows_append (a b : List Row) : writeRows (a ++ b) = writeRows a ++ writeRows b :=
  List.flatMap_append

theorem writeRows_singleton (key value : Bytes) :
    writeRows [(key, value)] = writeChunk key ++ writeChunk value := List.flatMap_singleton ..

/-! ## Rows -/

/-- Rows that stand in front are read and entered, and the others are read behind them. -/
theorem readRows_writeRows (hpairs : ∀ row ∈ pairs, row.Fits) (rows : Rows) (count : Nat)
    (rest : Bytes) :
    readRows rows (pairs.length + count) (writeRows pairs ++ rest) =
      readRows (pairs.foldl (fun m e => m.insert e.1 e.2) rows) count rest := by
  induction pairs generalizing rows with
  | nil => rw [List.length_nil, Nat.zero_add]; rfl
  | cons row pairs ih =>
    obtain ⟨hrow, hpairs⟩ := List.forall_mem_cons.1 hpairs
    have hcount : (row :: pairs).length + count = pairs.length + count + 1 := by
      rw [List.length_cons]
      omega
    have hraw : writeRows (row :: pairs) ++ rest =
        writeChunk row.1 ++ (writeChunk row.2 ++ (writeRows pairs ++ rest)) := by
      simp [writeRows]
    rw [hcount, hraw, readRows, readChunk_eq_some_iff.2 ⟨hrow.1, rfl⟩]
    simp only
    rw [readChunk_eq_some_iff.2 ⟨hrow.2, rfl⟩]
    exact ih hpairs _

/-- Bytes without a whole chunk in front. -/
def Cut (rest : Bytes) : Prop :=
  ∀ bytes behind : Bytes, bytes.length < UInt32.size → rest ≠ writeChunk bytes ++ behind

theorem cut_iff : Cut rest ↔ readChunk rest = none := by
  rw [Option.eq_none_iff_forall_ne_some, Prod.forall]
  refine forall₂_congr fun bytes behind => ?_
  rw [ne_eq, ne_eq, readChunk_eq_some_iff, not_and]

/-- What is wrong behind the header, given the number of rows and the unpacked block. -/
def HasRowFault (count : Nat) (raw : Bytes) : SnapshotFault → Prop
  | .truncatedKey => ∃ pairs rest, (∀ row ∈ pairs, Row.Fits row) ∧ pairs.length < count ∧
      raw = writeRows pairs ++ rest ∧ Cut rest
  | .truncatedValue => ∃ pairs key rest, (∀ row ∈ pairs, Row.Fits row) ∧ pairs.length < count ∧
      key.length < UInt32.size ∧ raw = writeRows pairs ++ (writeChunk key ++ rest) ∧ Cut rest
  | .trailingData => ∃ pairs rest, (∀ row ∈ pairs, Row.Fits row) ∧ pairs.length = count ∧
      raw = writeRows pairs ++ rest ∧ rest ≠ []
  | _ => False

/-- Either all rows can be read, or one of them is cut off. -/
theorem exists_pairs (count : Nat) (raw : Bytes) :
    (∃ pairs rest, (∀ row ∈ pairs, Row.Fits row) ∧ pairs.length = count ∧
      raw = writeRows pairs ++ rest) ∨
    HasRowFault count raw .truncatedKey ∨ HasRowFault count raw .truncatedValue := by
  induction count with
  | zero => exact .inl ⟨[], raw, List.forall_mem_nil _, rfl, rfl⟩
  | succ count ih =>
    rcases ih with ⟨pairs, rest, hpairs, rfl, rfl⟩ | ⟨pairs, rest, hpairs, hlt, hraw, hcut⟩ |
      ⟨pairs, key, rest, hpairs, hlt, hkey, hraw, hcut⟩
    · have hlt : pairs.length < pairs.length + 1 := Nat.lt_succ_self _
      cases hread : readChunk rest with
      | none => exact .inr (.inl ⟨pairs, rest, hpairs, hlt, rfl, cut_iff.2 hread⟩)
      | some p =>
        obtain ⟨key, rest'⟩ := p
        obtain ⟨hkey, rfl⟩ := readChunk_eq_some_iff.1 hread
        cases hread' : readChunk rest' with
        | none =>
          exact .inr (.inr ⟨pairs, key, rest', hpairs, hlt, hkey, rfl, cut_iff.2 hread'⟩)
        | some p =>
          obtain ⟨value, behind⟩ := p
          obtain ⟨hvalue, rfl⟩ := readChunk_eq_some_iff.1 hread'
          refine .inl ⟨pairs ++ [(key, value)], behind, ?_, by simp, ?_⟩
          · exact List.forall_mem_append.2 ⟨hpairs, List.forall_mem_singleton.2 ⟨hkey, hvalue⟩⟩
          · simp [writeRows_append, writeRows_singleton]
    · exact .inr (.inl ⟨pairs, rest, hpairs, Nat.lt_succ_of_lt hlt, hraw, hcut⟩)
    · exact .inr (.inr ⟨pairs, key, rest, hpairs, Nat.lt_succ_of_lt hlt, hkey, hraw, hcut⟩)

/-- A fault is met where the rows in front of it were read. -/
theorem readRows_of_hasRowFault {fault : SnapshotFault} (h : HasRowFault count raw fault)
    (rows : Rows) : readRows rows count raw = .error fault := by
  cases fault with
  | truncatedKey =>
    obtain ⟨pairs, rest, hpairs, hlt, rfl, hcut⟩ := h
    obtain ⟨more, rfl⟩ := Nat.exists_eq_add_of_lt hlt
    rw [Nat.add_assoc, readRows_writeRows hpairs, readRows, cut_iff.1 hcut]
  | truncatedValue =>
    obtain ⟨pairs, key, rest, hpairs, hlt, hkey, rfl, hcut⟩ := h
    obtain ⟨more, rfl⟩ := Nat.exists_eq_add_of_lt hlt
    rw [Nat.add_assoc, readRows_writeRows hpairs, readRows, readChunk_eq_some_iff.2 ⟨hkey, rfl⟩]
    simp only
    rw [cut_iff.1 hcut]
  | trailingData =>
    obtain ⟨pairs, rest, hpairs, rfl, rfl, hrest⟩ := h
    rw [← Nat.add_zero pairs.length, readRows_writeRows hpairs, readRows,
      if_neg (by rwa [List.isEmpty_iff])]
  | _ => exact h.elim

theorem readRows_of_fits (hpairs : ∀ row ∈ pairs, row.Fits) (rows : Rows) :
    readRows rows pairs.length (writeRows pairs) =
      .ok (pairs.foldl (fun m e => m.insert e.1 e.2) rows) := by
  have hread := readRows_writeRows hpairs rows 0 []
  rwa [Nat.add_zero, List.append_nil] at hread

/-- Either the block is just so many rows, or it has a fault. -/
theorem exists_pairs_or_fault (count : Nat) (raw : Bytes) :
    (∃ pairs : List Row, (∀ row ∈ pairs, row.Fits) ∧ pairs.length = count ∧
      raw = writeRows pairs) ∨ ∃ fault, HasRowFault count raw fault := by
  rcases exists_pairs count raw with ⟨pairs, rest, hpairs, hlength, hraw⟩ | hfault | hfault
  · by_cases hrest : rest = []
    · subst hrest
      exact .inl ⟨pairs, hpairs, hlength, hraw.trans (List.append_nil _)⟩
    · exact .inr ⟨.trailingData, pairs, rest, hpairs, hlength, hraw, hrest⟩
  · exact .inr ⟨.truncatedKey, hfault⟩
  · exact .inr ⟨.truncatedValue, hfault⟩

theorem readRows_eq_ok_iff :
    readRows rows count raw = .ok rows' ↔
      ∃ pairs : List Row, (∀ row ∈ pairs, row.Fits) ∧ pairs.length = count ∧ raw = writeRows pairs ∧
        rows' = pairs.foldl (fun m e => m.insert e.1 e.2) rows := by
  constructor
  · intro h
    rcases exists_pairs_or_fault count raw with ⟨pairs, hpairs, rfl, rfl⟩ | ⟨fault, hfault⟩
    · rw [readRows_of_fits hpairs] at h
      exact ⟨pairs, hpairs, rfl, rfl, (Except.ok.inj h).symm⟩
    · rw [readRows_of_hasRowFault hfault] at h
      cases h
  · rintro ⟨pairs, hpairs, rfl, rfl, rfl⟩
    exact readRows_of_fits hpairs rows

theorem readRows_eq_error_iff {fault : SnapshotFault} :
    readRows rows count raw = .error fault ↔ HasRowFault count raw fault := by
  refine ⟨fun h => ?_, fun h => readRows_of_hasRowFault h rows⟩
  rcases exists_pairs_or_fault count raw with ⟨pairs, hpairs, rfl, rfl⟩ | ⟨first, hfirst⟩
  · rw [readRows_of_fits hpairs] at h
    cases h
  · rw [readRows_of_hasRowFault hfirst] at h
    exact Except.error.inj h ▸ hfirst

/-! ## Rounds -/

/-- What reading rows answers, and in how many rounds. -/
structure RowsRead where
  outcome : Except SnapshotFault Rows
  rounds : Nat

/-- Reads rows and counts the rounds that are begun. -/
def readRowsCounted (rows : Rows) : Nat → Bytes → RowsRead
  | 0, raw => ⟨if raw.isEmpty then .ok rows else .error .trailingData, 0⟩
  | count + 1, raw =>
    match readChunk raw with
    | none => ⟨.error .truncatedKey, 1⟩
    | some (key, raw) =>
      match readChunk raw with
      | none => ⟨.error .truncatedValue, 1⟩
      | some (value, raw) =>
        let others := readRowsCounted (rows.insert key value) count raw
        ⟨others.outcome, others.rounds + 1⟩

theorem outcome_readRowsCounted (rows : Rows) (count : Nat) (raw : Bytes) :
    (readRowsCounted rows count raw).outcome = readRows rows count raw := by
  induction count generalizing rows raw with
  | zero => rfl
  | succ count ih =>
    unfold readRowsCounted readRows
    cases readChunk raw with
    | none => rfl
    | some keyed =>
      simp only
      cases readChunk keyed.2 with
      | none => rfl
      | some valued => exact ih _ _

/-- A round that is not the last one uses up the lengths of a key and of a value. -/
theorem rounds_readRowsCounted_le (rows : Rows) (count : Nat) (raw : Bytes) :
    (readRowsCounted rows count raw).rounds ≤ raw.length / 8 + 1 := by
  induction count generalizing rows raw with
  | zero => exact Nat.zero_le _
  | succ count ih =>
    unfold readRowsCounted
    split
    · exact Nat.le_add_left 1 _
    next key behindKey hkey =>
      split
      · exact Nat.le_add_left 1 _
      next value behind hvalue =>
        have hrounds := ih (rows.insert key value) behind
        have hkey := length_of_readChunk hkey
        have hvalue := length_of_readChunk hvalue
        simp only
        omega

/-! ## Files -/

/-- A file of the format with this number of rows and this block. -/
def withHeader (count : Nat) (packed : Bytes) : Bytes :=
  magic ++ Bytes.ofLittleEndian 4 version ++ Bytes.ofLittleEndian 8 count ++ packed

/-- Whether the file has the format and holds these rows. Of rows with one key the last one
counts. -/
def Holds (unpack? : Bytes → Option Bytes) (file : Bytes) (rows : Rows) : Prop :=
  ∃ (pairs : List Row) (packed : Bytes), file = withHeader pairs.length packed ∧
    pairs.length < UInt64.size ∧ unpack? packed = some (writeRows pairs) ∧
    (∀ row ∈ pairs, row.Fits) ∧ rows = .ofList pairs

/-- The version of the format that the header of a file tells. -/
def versionOf (file : Bytes) : Nat := Bytes.littleEndian ((file.drop 4).take 4)

/-- The number of rows that the header of a file tells. -/
def countOf (file : Bytes) : Nat := Bytes.littleEndian ((file.drop 8).take 8)

/-- Whether the file has the fault, whatever else is wrong with it. -/
def HasFault (unpack? : Bytes → Option Bytes) (file : Bytes) : SnapshotFault → Prop
  | .tooSmall => file.length < 16
  | .magic => ¬ magic <+: file
  | .version found => versionOf file = found.toNat ∧ found.toNat ≠ version
  | .packing => unpack? (file.drop 16) = none
  | fault => ∃ raw, unpack? (file.drop 16) = some raw ∧ HasRowFault (countOf file) raw fault

/-- The place of a fault in the order in which faults are looked for. A row is cut off in its key
or in its value, and the first such row counts. -/
def place : SnapshotFault → Nat
  | .tooSmall => 0
  | .magic => 1
  | .version _ => 2
  | .packing => 3
  | .truncatedKey | .truncatedValue => 4
  | .trailingData => 5
  | .other _ => 6

/-- Whether a file has no fault that is looked for before this place. -/
def Passes (unpack? : Bytes → Option Bytes) (file : Bytes) (n : Nat) : Prop :=
  ∀ fault, place fault < n → ¬ HasFault unpack? file fault

section Header
variable {unpack? : Bytes → Option Bytes} {file packed : Bytes}

theorem drop_withHeader : (withHeader count packed).drop 16 = packed := by
  refine List.drop_left' ?_
  simp [magic]

theorem countOf_withHeader (hcount : count < UInt64.size) :
    countOf (withHeader count packed) = count := by
  have hlead : (magic ++ Bytes.ofLittleEndian 4 version).length = 8 := by simp [magic]
  have hwidth : (Bytes.ofLittleEndian 8 count).length = 8 := Bytes.length_ofLittleEndian ..
  rw [countOf, withHeader, List.append_assoc, List.drop_left' hlead, List.take_left' hwidth]
  exact Bytes.littleEndian_ofLittleEndian 8 count hcount

theorem versionOf_withHeader : versionOf (withHeader count packed) = version := by
  have hlead : magic.length = 4 := rfl
  have hwidth : (Bytes.ofLittleEndian 4 version).length = 4 := Bytes.length_ofLittleEndian ..
  rw [versionOf, withHeader, List.append_assoc, List.append_assoc, List.drop_left' hlead,
    List.take_left' hwidth]
  exact Bytes.littleEndian_ofLittleEndian 4 version (by decide)

/-- The bytes of a number stand where it is read. -/
theorem ofLittleEndian_drop_take {start width : Nat} (h : start + width ≤ file.length) :
    Bytes.ofLittleEndian width (Bytes.littleEndian ((file.drop start).take width)) =
      (file.drop start).take width := by
  have hlength : ((file.drop start).take width).length = width := by
    rw [List.length_take, List.length_drop]
    omega
  have hbytes := Bytes.ofLittleEndian_littleEndian ((file.drop start).take width)
  rwa [hlength] at hbytes

/-- What passes the checks of the header has one. -/
theorem eq_withHeader (hlength : 16 ≤ file.length) (hmagic : magic <+: file)
    (hversion : versionOf file = version) :
    file = withHeader (countOf file) (file.drop 16) ∧ countOf file < UInt64.size := by
  have hcount : Bytes.ofLittleEndian 8 (countOf file) = (file.drop 8).take 8 :=
    ofLittleEndian_drop_take (by omega)
  have hfound : Bytes.ofLittleEndian 4 version = (file.drop 4).take 4 := by
    rw [← hversion]
    exact ofLittleEndian_drop_take (by omega)
  have hlead : magic = file.take 4 := List.prefix_iff_eq_take.1 hmagic
  constructor
  · calc file
        = file.take 4 ++ (file.drop 4).take 4 ++ (file.drop 8).take 8 ++ file.drop 16 := by
          rw [List.append_assoc, List.append_assoc, ← List.drop_drop (i := 8) (j := 8),
            List.take_append_drop, ← List.drop_drop (i := 4) (j := 4), List.take_append_drop,
            List.take_append_drop]
      _ = withHeader (countOf file) (file.drop 16) := by rw [withHeader, hcount, hfound, ← hlead]
  · have hlt := Bytes.littleEndian_lt ((file.drop 8).take 8)
    have hwidth : ((file.drop 8).take 8).length = 8 := by
      rw [List.length_take, List.length_drop]
      omega
    rwa [hwidth] at hlt

/-- The checks of the header in their order, and what is read behind it. -/
theorem readWith_eq (unpack? : Bytes → Option Bytes) (file : Bytes) :
    readWith unpack? file =
      if file.length < 16 then .error .tooSmall
      else if ¬ magic <+: file then .error .magic
      else if versionOf file ≠ version then .error (.version (.ofNat (versionOf file)))
      else
        match unpack? (file.drop 16) with
        | none => .error .packing
        | some raw => readRows .empty (countOf file) raw := by
  have hmagic : file.take 4 ≠ magic ↔ ¬ magic <+: file := by
    rw [List.prefix_iff_eq_take, eq_comm]
    rfl
  simp only [readWith, hmagic]
  rfl

theorem passes_zero : Passes unpack? file 0 := fun _ h => absurd h (Nat.not_lt_zero _)

theorem Passes.succ {n : Nat} (h : Passes unpack? file n)
    (hplace : ∀ fault, place fault = n → ¬ HasFault unpack? file fault) :
    Passes unpack? file (n + 1) := fun fault hfault =>
  (Nat.lt_succ_iff_lt_or_eq.1 hfault).elim (h fault) (hplace fault)

theorem toNat_ofNat_versionOf (file : Bytes) :
    (UInt32.ofNat (versionOf file)).toNat = versionOf file := by
  have hlt := Bytes.littleEndian_lt ((file.drop 4).take 4)
  have hwidth : ((file.drop 4).take 4).length ≤ 4 := List.length_take_le ..
  have hpow : 256 ^ ((file.drop 4).take 4).length ≤ 256 ^ 4 :=
    Nat.pow_le_pow_right (by decide) hwidth
  rw [UInt32.toNat_ofNat']
  exact Nat.mod_eq_of_lt (Nat.lt_of_lt_of_le hlt hpow)

/-- What reading answers, from the first check that fails on. -/
theorem readWith_cases (unpack? : Bytes → Option Bytes) (file : Bytes) :
    (∃ fault, readWith unpack? file = .error fault ∧ place fault < 4 ∧
      HasFault unpack? file fault ∧ Passes unpack? file (place fault)) ∨
    (Passes unpack? file 4 ∧ 16 ≤ file.length ∧ magic <+: file ∧ versionOf file = version ∧
      ∃ raw, unpack? (file.drop 16) = some raw ∧
        readWith unpack? file = readRows .empty (countOf file) raw) := by
  rw [readWith_eq]
  by_cases hlength : file.length < 16
  · rw [if_pos hlength]
    exact .inl ⟨.tooSmall, rfl, by decide, hlength, passes_zero⟩
  have hone : Passes unpack? file 1 := passes_zero.succ fun fault hfault => by
    cases fault with
    | tooSmall => exact hlength
    | _ => simp [place] at hfault
  rw [if_neg hlength]
  by_cases hmagic : magic <+: file
  case neg =>
    rw [if_pos hmagic]
    exact .inl ⟨.magic, rfl, by decide, hmagic, hone⟩
  have htwo : Passes unpack? file 2 := hone.succ fun fault hfault => by
    cases fault with
    | magic => exact not_not_intro hmagic
    | _ => simp [place] at hfault
  rw [if_neg (not_not_intro hmagic)]
  by_cases hversion : versionOf file = version
  case neg =>
    rw [if_pos hversion]
    refine .inl ⟨.version (.ofNat (versionOf file)), rfl, by simp [place], ?_, htwo⟩
    have hfound := toNat_ofNat_versionOf file
    exact ⟨hfound.symm, fun h => hversion (hfound.symm.trans h)⟩
  have hthree : Passes unpack? file 3 := htwo.succ fun fault hfault => by
    cases fault with
    | version found => exact fun h => h.2 (h.1.symm.trans hversion)
    | _ => simp [place] at hfault
  rw [if_neg (not_not_intro hversion)]
  cases hunpack : unpack? (file.drop 16) with
  | none => exact .inl ⟨.packing, rfl, by decide, hunpack, hthree⟩
  | some raw =>
    have hfour : Passes unpack? file 4 := hthree.succ fun fault hfault => by
      cases fault with
      | packing => exact fun hnone => Option.some_ne_none raw (hunpack.symm.trans hnone)
      | _ => simp [place] at hfault
    exact .inr ⟨hfour, Nat.not_lt.1 hlength, hmagic, hversion, raw, rfl, rfl⟩

/-- Behind a good header it is the block that decides. -/
theorem readWith_withHeader (hcount : count < UInt64.size) :
    readWith unpack? (withHeader count packed) =
      match unpack? packed with
      | none => .error .packing
      | some raw => readRows .empty count raw := by
  have hlength : ¬ (withHeader count packed).length < 16 := by
    simp only [withHeader, magic, List.length_append, Bytes.length_ofLittleEndian, List.length_cons,
      List.length_nil]
    omega
  have hmagic : magic <+: withHeader count packed := by
    rw [withHeader, List.append_assoc, List.append_assoc]
    exact List.prefix_append ..
  rw [readWith_eq, if_neg hlength, if_neg (not_not_intro hmagic),
    if_neg (not_not_intro versionOf_withHeader), drop_withHeader, countOf_withHeader hcount]

/-- A row fault is one of the file. -/
theorem hasFault_of_hasRowFault {fault : SnapshotFault}
    (hunpack : unpack? (file.drop 16) = some raw) (h : HasRowFault (countOf file) raw fault) :
    HasFault unpack? file fault := by
  cases fault with
  | truncatedKey => exact ⟨raw, hunpack, h⟩
  | truncatedValue => exact ⟨raw, hunpack, h⟩
  | trailingData => exact ⟨raw, hunpack, h⟩
  | _ => exact h.elim

theorem HasFault.hasRowFault {fault : SnapshotFault} (h : HasFault unpack? file fault)
    (hplace : ¬ place fault < 4) (hunpack : unpack? (file.drop 16) = some raw) :
    HasRowFault (countOf file) raw fault := by
  have hsame (h : ∃ raw, unpack? (file.drop 16) = some raw ∧ HasRowFault (countOf file) raw fault) :
      HasRowFault (countOf file) raw fault := by
    obtain ⟨raw', hunpack', h⟩ := h
    rw [hunpack, Option.some.injEq] at hunpack'
    rwa [hunpack']
  cases fault with
  | truncatedKey => exact hsame h
  | truncatedValue => exact hsame h
  | trailingData => exact hsame h
  | other reason => exact hsame h
  | _ => simp [place] at hplace

/-- In the header one place has one fault. -/
theorem HasFault.eq_of_place_eq {a b : SnapshotFault} (ha : HasFault unpack? file a)
    (hb : HasFault unpack? file b) (hplace : place a = place b) (hheader : place a < 4) :
    a = b := by
  cases a with
  | version found =>
    cases b with
    | version found' => rw [UInt32.toNat.inj (ha.1.symm.trans hb.1)]
    | _ => simp [place] at hplace
  | tooSmall => cases b <;> simp [place] at hplace ⊢
  | magic => cases b <;> simp [place] at hplace ⊢
  | packing => cases b <;> simp [place] at hplace ⊢
  | _ => simp [place] at hheader

theorem readWith_eq_error_iff {fault : SnapshotFault} :
    readWith unpack? file = .error fault ↔
      HasFault unpack? file fault ∧ Passes unpack? file (place fault) := by
  rcases readWith_cases unpack? file with ⟨first, hread, hheader, hfirst, hpasses⟩ |
    ⟨hpasses, -, -, -, raw, hunpack, hread⟩
  · rw [hread, Except.error.injEq]
    constructor
    · rintro rfl
      exact ⟨hfirst, hpasses⟩
    · rintro ⟨hfault, hpassed⟩
      have hle : place fault ≤ place first := Nat.not_lt.1 fun hlt => hpassed first hlt hfirst
      have hge : place first ≤ place fault := Nat.not_lt.1 fun hlt => hpasses fault hlt hfault
      exact hfirst.eq_of_place_eq hfault (Nat.le_antisymm hge hle) hheader
  · rw [hread, readRows_eq_error_iff]
    constructor
    · intro hrow
      refine ⟨hasFault_of_hasRowFault hunpack hrow, fun other hother hfault => ?_⟩
      by_cases hheader : place other < 4
      · exact hpasses other hheader hfault
      · -- Reading meets one fault of the rows only.
        have hread := readRows_of_hasRowFault (hfault.hasRowFault hheader hunpack) .empty
        rw [readRows_of_hasRowFault hrow, Except.error.injEq] at hread
        exact absurd hother (hread ▸ Nat.lt_irrefl _)
    · rintro ⟨hfault, -⟩
      exact hfault.hasRowFault (fun hheader => hpasses fault hheader hfault) hunpack

theorem readWith_eq_ok_iff : readWith unpack? file = .ok rows ↔ Holds unpack? file rows := by
  constructor
  · intro h
    rcases readWith_cases unpack? file with ⟨first, hread, -⟩ |
      ⟨-, hlength, hmagic, hversion, raw, hunpack, hread⟩
    · rw [hread] at h
      cases h
    · rw [hread] at h
      obtain ⟨pairs, hpairs, hcount, rfl, rfl⟩ := readRows_eq_ok_iff.1 h
      obtain ⟨hfile, hlt⟩ := eq_withHeader hlength hmagic hversion
      rw [← hcount] at hfile hlt
      exact ⟨pairs, file.drop 16, hfile, hlt, hunpack, hpairs, rfl⟩
  · rintro ⟨pairs, packed, rfl, hcount, hunpack, hpairs, rfl⟩
    rw [readWith_withHeader hcount, hunpack]
    exact readRows_eq_ok_iff.2 ⟨pairs, hpairs, rfl, rfl, rfl⟩

end Header

end Snapshot

/-- A file is read as rows just if it has the format and holds them, and is refused with a fault
just if it has that fault and none that is looked for before. Reading rows ends in as many rounds
as there is room for lengths. -/
theorem snapshots_read_exactly (unpack? : Bytes → Option Bytes) (file : Bytes) :
    (∀ rows, Snapshot.readWith unpack? file = .ok rows ↔ Snapshot.Holds unpack? file rows) ∧
    (∀ fault, Snapshot.readWith unpack? file = .error fault ↔
      Snapshot.HasFault unpack? file fault ∧
      ∀ other, Snapshot.place other < Snapshot.place fault →
        ¬ Snapshot.HasFault unpack? file other) ∧
    ∀ rows count raw,
      (Snapshot.readRowsCounted rows count raw).outcome = Snapshot.readRows rows count raw ∧
      (Snapshot.readRowsCounted rows count raw).rounds ≤ raw.length / 8 + 1 :=
  ⟨fun _ => Snapshot.readWith_eq_ok_iff, fun _ => Snapshot.readWith_eq_error_iff,
    fun rows count raw => ⟨Snapshot.outcome_readRowsCounted rows count raw,
      Snapshot.rounds_readRowsCounted_le rows count raw⟩⟩

end PhpIndex
