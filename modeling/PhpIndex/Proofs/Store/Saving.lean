import PhpIndex.Proofs.OrderedMap
import PhpIndex.Proofs.Store.Snapshots
import PhpIndex.Store.Basic

/-!
# Saved stores

A store that is not dirty is the store that opening its directory again would give. Every call
either leaves the rows as they are or marks the store; a flush takes the mark away only after the
rows have come to stand in the file. That rows come back from the file they were written to needs
of the packing only that it can be undone.
Main statement: `clean_stores_saved`.
-/
namespace PhpIndex

/-! ## Literal blocks -/

namespace Lz4

theorem readMore_writeMore (n : Nat) (rest : Bytes) :
    readMore (writeMore n ++ rest) = some (n, rest) := by
  have hlast : n % 255 < 255 := Nat.mod_lt _ (by decide)
  have hmore (k : Nat) : readMore (List.replicate k 255 ++ ([.ofNat (n % 255)] ++ rest)) =
      some (k * 255 + n % 255, rest) := by
    induction k with
    | zero =>
      have htoNat : (UInt8.ofNat (n % 255)).toNat = n % 255 := by
        rw [UInt8.toNat_ofNat']
        omega
      have hne : UInt8.ofNat (n % 255) ≠ 255 := fun e => by
        have hfull := congrArg UInt8.toNat e
        rw [htoNat] at hfull
        exact absurd hfull (Nat.ne_of_lt hlast)
      simp [readMore, hne, htoNat]
    | succ k ih =>
      rw [List.replicate_succ, List.cons_append, readMore, if_pos rfl, ih, Option.map_some]
      simp only [Option.some.injEq, Prod.mk.injEq, and_true]
      omega
  rw [writeMore, List.append_assoc, hmore, Nat.mul_comm, Nat.div_add_mod]

/-- A single part gives back its literal bytes. -/
theorem unpackParts_literals {token : UInt8} {input raw : Bytes}
    (h : readLength (token.toNat / 16) input = some (raw.length, raw)) :
    unpackParts raw.length #[] (token :: input) = some raw.toArray := by
  rw [unpackParts]
  split
  next hnone =>
    rw [h] at hnone
    cases hnone
  next literals rest hsome =>
    rw [h, Option.some.injEq, Prod.mk.injEq] at hsome
    obtain ⟨rfl, rfl⟩ := hsome
    rw [if_neg (by simp)]
    simp only
    split
    · simp
    next hdrop => simp at hdrop
    next hdrop => simp at hdrop

/-- What is packed can be unpacked, as long as the size of the block has 32 bits. -/
theorem unpack?_pack {raw : Bytes} (h : raw.length < UInt32.size) :
    unpack? (pack raw) = some raw := by
  have hsize : (Bytes.ofLittleEndian 4 raw.length).length = 4 := Bytes.length_ofLittleEndian ..
  have hroom : Bytes.littleEndian (Bytes.ofLittleEndian 4 raw.length) = raw.length :=
    Bytes.littleEndian_ofLittleEndian 4 _ h
  have hfour : ¬ (pack raw).length < 4 := by simp [pack]
  rw [unpack?, if_neg hfour, pack, List.append_assoc, List.take_left' hsize, List.drop_left' hsize,
    hroom]
  by_cases hshort : raw.length < 15
  · have htoken : (UInt8.ofNat (raw.length * 16)).toNat / 16 = raw.length := by
      rw [UInt8.toNat_ofNat']
      omega
    have hread : readLength ((UInt8.ofNat (raw.length * 16)).toNat / 16) raw =
        some (raw.length, raw) := by
      rw [htoken, readLength, if_neg (Nat.ne_of_lt hshort)]
    rw [if_pos hshort, List.singleton_append, unpackParts_literals hread]
    rfl
  · have hread : readLength ((0xF0 : UInt8).toNat / 16) (writeMore (raw.length - 15) ++ raw) =
        some (raw.length, raw) := by
      have hlength : raw.length - 15 + 15 = raw.length := by omega
      rw [readLength, if_pos (by decide), readMore_writeMore, Option.map_some]
      simp only [hlength]
    rw [if_neg hshort, List.cons_append, unpackParts_literals hread]
    rfl

end Lz4

/-! ## Rows in a file -/

namespace Snapshot

/-- Every row takes more bytes than one. -/
theorem size_le_length_writeRows (rows : Rows) :
    rows.size ≤ (writeRows rows.entries).length := by
  rw [OrderedMap.size, writeRows, List.length_flatMap]
  induction rows.entries with
  | nil => exact Nat.le_refl 0
  | cons row rest ih =>
    rw [List.length_cons, List.map_cons, List.sum_cons]
    simp only [writeChunk, List.length_append, Bytes.length_ofLittleEndian] at ih ⊢
    omega

end Snapshot

/-- How a block of bytes is packed and unpacked. -/
structure Packing where
  pack : Bytes → Bytes
  unpack? : Bytes → Option Bytes

namespace Packing

def lz4 : Packing := ⟨Lz4.pack, Lz4.unpack?⟩

/-- Whether the packing of the block with these rows can be undone. Their number has 64 bits. -/
def Keeps (p : Packing) (rows : Rows) : Prop :=
  rows.size < UInt64.size ∧
    p.unpack? (p.pack (Snapshot.writeRows rows.entries)) = some (Snapshot.writeRows rows.entries)

theorem keeps_lz4 {rows : Rows} (h : (Snapshot.writeRows rows.entries).length < UInt32.size) :
    lz4.Keeps rows := by
  have hsize := Snapshot.size_le_length_writeRows rows
  have hword : UInt32.size < UInt64.size := by decide
  exact ⟨by omega, Lz4.unpack?_pack h⟩

end Packing

namespace Rows
variable {rows : Rows}

/-- Whether the lengths of all keys and values have 32 bits. -/
def Fit (rows : Rows) : Prop := ∀ row ∈ rows.entries, Row.Fits row

theorem fit_empty : Fit .empty := fun _ h => nomatch h

theorem Fit.insert (h : rows.Fit) {key value : Bytes} (hrow : Row.Fits (key, value)) :
    Fit (rows.insert key value) := fun _ hmem => by
  rcases OrderedMap.mem_insertEntry hmem with rfl | hmem
  · exact hrow
  · exact h _ hmem

theorem Fit.filter (h : rows.Fit) (keeps : Bytes → Bytes → Bool) : Fit (rows.filter keeps) :=
  fun row hmem => h row (List.mem_filter.1 hmem).1

theorem Fit.ofList {pairs : List Row} (hpairs : ∀ row ∈ pairs, row.Fits) :
    Fit (OrderedMap.ofList pairs) := by
  have hfold (rows : Rows) (h : rows.Fit) :
      Fit (pairs.foldl (fun m e => m.insert e.1 e.2) rows) := by
    induction pairs generalizing rows with
    | nil => exact h
    | cons row rest ih =>
      obtain ⟨hrow, hrest⟩ := List.forall_mem_cons.1 hpairs
      exact ih hrest _ (h.insert hrow)
  exact hfold .empty fit_empty

end Rows

/-- Whether the lengths of what a change enters have 32 bits. -/
def Change.Fits : Change → Prop
  | .put key value => Row.Fits (key, value)
  | _ => True

instance : DecidablePred Change.Fits
  | .put _ _ => inferInstanceAs (Decidable (Row.Fits _))
  | .delete _ => inferInstanceAs (Decidable True)
  | .deleteAll _ => inferInstanceAs (Decidable True)

namespace Rows
variable {rows : Rows}

theorem Fit.make (h : rows.Fit) {c : Change} (hc : c.Fits) : Fit (rows.make c) := by
  cases c with
  | put key value => exact h.insert hc
  | delete key => exact h.filter _
  | deleteAll lead => exact h.filter _

theorem Fit.apply (h : rows.Fit) {batch : Batch} (hbatch : ∀ c ∈ batch, c.Fits) :
    Fit (rows.apply batch) := by
  induction batch generalizing rows with
  | nil => exact h
  | cons c rest ih =>
    obtain ⟨hc, hrest⟩ := List.forall_mem_cons.1 hbatch
    exact ih (h.make hc) hrest

end Rows

namespace Snapshot
variable {p : Packing} {rows : Rows}

/-- Rows come back from the file that they were written to. -/
theorem readWith_writeWith (hfit : rows.Fit) (hkeeps : p.Keeps rows) :
    readWith p.unpack? (writeWith p.pack rows) = .ok rows := by
  have hentries : rows = .ofList rows.entries :=
    OrderedMap.ext_entries (OrderedMap.entries_ofList rows.ascending).symm
  exact readWith_eq_ok_iff.2
    ⟨rows.entries, p.pack (writeRows rows.entries), rfl, hkeeps.1, hkeeps.2, hfit, hentries⟩

theorem fit_of_readWith {unpack? : Bytes → Option Bytes} {file : Bytes}
    (h : readWith unpack? file = .ok rows) : rows.Fit := by
  obtain ⟨pairs, -, -, -, -, hpairs, rfl⟩ := readWith_eq_ok_iff.1 h
  exact Rows.Fit.ofList hpairs

end Snapshot

/-! ## Calls -/

/-- What a store is asked to do. A flush may meet a fault while it writes. -/
inductive StoreCall where
  | put (key value : Bytes)
  | delete (key : Bytes)
  | deleteAll (lead : Bytes)
  | apply (batch : Batch)
  | flush (fault? : Option FileFault)
  deriving DecidableEq

/-- Whether the lengths of what a call enters have 32 bits. -/
def StoreCall.Fits : StoreCall → Prop
  | .put key value => Row.Fits (key, value)
  | .apply batch => ∀ c ∈ batch, c.Fits
  | _ => True

instance : DecidablePred StoreCall.Fits
  | .put _ _ => inferInstanceAs (Decidable (Row.Fits _))
  | .apply _ => inferInstanceAs (Decidable (∀ c ∈ _, Change.Fits c))
  | .delete _ | .deleteAll _ | .flush _ => inferInstanceAs (Decidable True)

/-- A store and the file in its directory, if there is one yet. -/
structure FiledStore where
  store : Store
  file? : Option Bytes
  deriving DecidableEq

namespace FiledStore
variable {p : Packing} {path : String} {f : FiledStore} {c : StoreCall}

/-- Puts the bytes in place of the file. With a fault the file stays as it was. -/
def replaceFile (fault? : Option FileFault) (bytes : Bytes) :
    StateM (Option Bytes) (Except FileFault Unit) := do
  match fault? with
  | none =>
    set (some bytes)
    return .ok ()
  | some fault => return .error fault

/-- What a call leaves, and its answer as far as it can fail. -/
def call (p : Packing) (f : FiledStore) : StoreCall → FiledStore × Except StoreError Unit
  | .put key value => ({ f with store := f.store.put key value }, .ok ())
  | .delete key => ({ f with store := (f.store.delete key).1 }, .ok ())
  | .deleteAll lead => ({ f with store := (f.store.deleteAll lead).1 }, .ok ())
  | .apply batch => ({ f with store := f.store.apply batch }, .ok ())
  | .flush fault? =>
    let ((store, done), file?) := (f.store.flushWith p.pack (replaceFile fault?)).run f.file?
    (⟨store, file?⟩, done)

def run (p : Packing) (f : FiledStore) (calls : List StoreCall) : FiledStore :=
  calls.foldl (fun f c => (f.call p c).1) f

/-- The rows that a call brings into the file. -/
def written (f : FiledStore) : StoreCall → List Rows
  | .flush none => if f.store.persistent && f.store.dirty then [f.store.rows] else []
  | _ => []

/-- The rows that were in the file at any time during a run. -/
def writtenBy (p : Packing) (f : FiledStore) : List StoreCall → List Rows
  | [] => []
  | c :: rest => f.written c ++ writtenBy p (f.call p c).1 rest

/-- What holds of a store and its file between any two calls. -/
structure Filed (p : Packing) (path : String) (f : FiledStore) : Prop where
  persistent : f.store.persistent = true
  fit : f.store.rows.Fit
  saved : f.store.dirty = false → Store.openFileWith p.unpack? path f.file? = .ok f.store

/-- A store that was just opened stands in its file. -/
theorem filed_of_openFileWith {file? : Option Bytes} {s : Store}
    (h : Store.openFileWith p.unpack? path file? = .ok s) : Filed p path ⟨s, file?⟩ := by
  have hsaved := h
  unfold Store.openFileWith at h
  cases file? with
  | none =>
    cases h
    exact ⟨rfl, Rows.fit_empty, fun _ => hsaved⟩
  | some file =>
    simp only at h
    split at h
    next rows hread =>
      cases h
      exact ⟨rfl, Snapshot.fit_of_readWith hread, fun _ => hsaved⟩
    next => cases h

/-- Opening a file that was just written gives its rows. -/
theorem openFileWith_writeWith {rows : Rows} (hfit : rows.Fit) (hkeeps : p.Keeps rows) :
    Store.openFileWith p.unpack? path (some (Snapshot.writeWith p.pack rows)) =
      .ok ⟨rows, true, false⟩ := by
  simp only [Store.openFileWith, Snapshot.readWith_writeWith hfit hkeeps]

/-- A store that does not wait for being written is left alone by a flush. -/
theorem call_flush_of_clean (fault? : Option FileFault) (h : f.store.dirty = false) :
    f.call p (.flush fault?) = (f, .ok ()) := by
  simp only [call, Store.flushWith, Store.pending?, h, Bool.and_false]
  rfl

theorem call_flush_of_fault (fault : FileFault) (hpersistent : f.store.persistent = true)
    (h : f.store.dirty = true) :
    f.call p (.flush (some fault)) = (f, .error (.file fault)) := by
  simp only [call, Store.flushWith, Store.pending?, hpersistent, h, Bool.and_self]
  rfl

theorem call_flush_of_dirty (hpersistent : f.store.persistent = true)
    (h : f.store.dirty = true) :
    f.call p (.flush none) =
      (⟨⟨f.store.rows, true, false⟩, some (Snapshot.writeWith p.pack f.store.rows)⟩, .ok ()) := by
  have hsaved : f.store.saved = ⟨f.store.rows, true, false⟩ := by
    rw [Store.saved, if_pos hpersistent, hpersistent]
  rw [← hsaved]
  simp only [call, Store.flushWith, Store.pending?, hpersistent, h, Bool.and_self]
  rfl

/-- A flush answers without an error just if there is nothing to write or the writing succeeds,
and then the store is clean. -/
theorem Filed.flush (h : Filed p path f) (fault? : Option FileFault) :
    ((f.call p (.flush fault?)).2 = .ok () ↔ f.store.dirty = false ∨ fault? = none) ∧
      ((f.call p (.flush fault?)).2 = .ok () →
        (f.call p (.flush fault?)).1.store.dirty = false) := by
  cases hdirty : f.store.dirty with
  | false => simp [call_flush_of_clean fault? hdirty, hdirty]
  | true =>
    cases fault? with
    | none => simp [call_flush_of_dirty h.persistent hdirty]
    | some fault => simp [call_flush_of_fault fault h.persistent hdirty]

/-- Each call marks the store, or leaves it, or brings it into the file. -/
theorem Filed.call (h : Filed p path f) (hfits : c.Fits)
    (hkeeps : ∀ rows ∈ f.written c, p.Keeps rows) : Filed p path (f.call p c).1 := by
  cases c with
  | put key value => exact ⟨h.persistent, h.fit.insert hfits, fun hclean => nomatch hclean⟩
  | delete key =>
    simp only [FiledStore.call, Store.delete]
    split
    · exact ⟨h.persistent, h.fit.filter _, fun hclean => nomatch hclean⟩
    · exact h
  | deleteAll lead =>
    simp only [FiledStore.call, Store.deleteAll]
    split
    · exact h
    · exact ⟨h.persistent, h.fit.filter _, fun hclean => nomatch hclean⟩
  | apply batch =>
    simp only [FiledStore.call, Store.apply]
    split
    · exact h
    · exact ⟨h.persistent, h.fit.apply hfits, fun hclean => nomatch hclean⟩
  | flush fault? =>
    cases hdirty : f.store.dirty with
    | false =>
      rw [call_flush_of_clean fault? hdirty]
      exact h
    | true =>
      cases fault? with
      | some fault =>
        rw [call_flush_of_fault fault h.persistent hdirty]
        exact h
      | none =>
        have hwritten : f.written (.flush none) = [f.store.rows] := by
          simp [written, h.persistent, hdirty]
        have hrows : p.Keeps f.store.rows := hkeeps _ (hwritten ▸ List.mem_singleton_self _)
        rw [call_flush_of_dirty h.persistent hdirty]
        exact ⟨rfl, h.fit, fun _ => openFileWith_writeWith h.fit hrows⟩

theorem Filed.run (h : Filed p path f) {calls : List StoreCall} (hfits : ∀ c ∈ calls, c.Fits)
    (hkeeps : ∀ rows ∈ f.writtenBy p calls, p.Keeps rows) : Filed p path (f.run p calls) := by
  induction calls generalizing f with
  | nil => exact h
  | cons c rest ih =>
    obtain ⟨hc, hrest⟩ := List.forall_mem_cons.1 hfits
    obtain ⟨hnow, hlater⟩ := List.forall_mem_append.1 hkeeps
    exact ih (h.call hc hnow) hrest hlater

theorem run_concat (p : Packing) (f : FiledStore) (calls : List StoreCall) (c : StoreCall) :
    f.run p (calls ++ [c]) = ((f.run p calls).call p c).1 := by
  rw [run, List.foldl_append]
  rfl

theorem writtenBy_append (p : Packing) (f : FiledStore) (a b : List StoreCall) :
    f.writtenBy p (a ++ b) = f.writtenBy p a ++ (f.run p a).writtenBy p b := by
  induction a generalizing f with
  | nil => rfl
  | cons c rest ih =>
    rw [List.cons_append, writtenBy, writtenBy, ih, List.append_assoc]
    rfl

end FiledStore

/-- After any calls to a store that was opened, as long as it is not dirty, opening its directory
again gives the same store. So it is after each flush that answers without an error, and a flush
does so just if there was nothing to write or writing succeeded. -/
theorem clean_stores_saved {p : Packing} {path : String} {file? : Option Bytes} {s : Store}
    (hopen : Store.openFileWith p.unpack? path file? = .ok s) {calls : List StoreCall}
    (hfits : ∀ c ∈ calls, c.Fits)
    (hkeeps : ∀ rows ∈ FiledStore.writtenBy p ⟨s, file?⟩ calls, p.Keeps rows) :
    let f := FiledStore.run p ⟨s, file?⟩ calls
    (f.store.dirty = false → Store.openFileWith p.unpack? path f.file? = .ok f.store) ∧
    ∀ earlier fault?, calls = earlier ++ [.flush fault?] →
      let before := FiledStore.run p ⟨s, file?⟩ earlier
      let answer := (before.call p (.flush fault?)).2
      (answer = .ok () ↔ before.store.dirty = false ∨ fault? = none) ∧
      (answer = .ok () → f.store.dirty = false ∧
        Store.openFileWith p.unpack? path f.file? = .ok f.store) := by
  have hstart := FiledStore.filed_of_openFileWith hopen
  have hend := hstart.run hfits hkeeps
  refine ⟨hend.saved, ?_⟩
  rintro earlier fault? rfl
  have hbefore : FiledStore.Filed p path (FiledStore.run p ⟨s, file?⟩ earlier) := by
    rw [FiledStore.writtenBy_append] at hkeeps
    exact hstart.run (fun c hc => hfits c (List.mem_append_left _ hc))
      fun rows hrows => hkeeps rows (List.mem_append_left _ hrows)
  obtain ⟨hanswer, hclean⟩ := hbefore.flush fault?
  refine ⟨hanswer, fun hok => ?_⟩
  have hdirty := hclean hok
  rw [← FiledStore.run_concat] at hdirty
  exact ⟨hdirty, hend.saved hdirty⟩

/-- Calls with empty keys and values, a flush that fails, and flushes that succeed. -/
def callsWithFault : List StoreCall :=
  [.put [1] [2, 3], .flush (some .notDirectory), .put [] [], .flush none, .delete [1],
    .apply [.put [4] [], .deleteAll [4]], .deleteAll [7], .flush none]

theorem clean_stores_saved_after_fault :
    let f := FiledStore.run .lz4 ⟨⟨.empty, true, false⟩, none⟩ callsWithFault
    (∀ c ∈ callsWithFault, c.Fits) ∧
    (∀ rows ∈ FiledStore.writtenBy .lz4 ⟨⟨.empty, true, false⟩, none⟩ callsWithFault,
      Packing.lz4.Keeps rows) ∧
    f.store = ⟨.ofList [([], [])], true, false⟩ ∧
    Store.openFile "store.snap" f.file? = .ok f.store := by
  have hfits : ∀ c ∈ callsWithFault, c.Fits := by decide
  have hkeeps : ∀ rows ∈ FiledStore.writtenBy .lz4 ⟨⟨.empty, true, false⟩, none⟩ callsWithFault,
      Packing.lz4.Keeps rows := by
    have hsmall : ∀ rows ∈ FiledStore.writtenBy .lz4 ⟨⟨.empty, true, false⟩, none⟩ callsWithFault,
        (Snapshot.writeRows rows.entries).length < UInt32.size := by decide
    exact fun rows hrows => Packing.keeps_lz4 (hsmall rows hrows)
  have hstore : (FiledStore.run .lz4 ⟨⟨.empty, true, false⟩, none⟩ callsWithFault).store =
      ⟨.ofList [([], [])], true, false⟩ := by decide
  have hopen : Store.openFileWith Packing.lz4.unpack? "store.snap" none =
      .ok ⟨.empty, true, false⟩ := rfl
  exact ⟨hfits, hkeeps, hstore, (clean_stores_saved hopen hfits hkeeps).1 (by rw [hstore])⟩

end PhpIndex
