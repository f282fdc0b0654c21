import PhpIndex.Proofs.OrderedMap
import PhpIndex.Store.Basic

/-!
# Scans and batches

A scan stops at the first key that does not begin with its lead. No row behind that point begins
with the lead either, because keys with a common beginning are neighbours in byte order. A batch
acts on each key by itself: the last change that touches the key decides.
Main statements: `scanFrom_eq_filter`, `mem_scan`, `get?_apply`.
-/
namespace PhpIndex

section Lists
variable {α : Type}

/-- Where the test fails it fails from there on, so that nothing is lost by stopping. -/
theorem takeWhile_eq_filter {p : α → Bool} {l : List α} (h : l.Pairwise (fun a b => p b → p a)) :
    l.takeWhile p = l.filter p := by
  induction l with
  | nil => rfl
  | cons a rest ih =>
    have hrest := List.pairwise_cons.1 h
    by_cases ha : p a
    · rw [List.takeWhile_cons_of_pos ha, List.filter_cons_of_pos ha, ih hrest.2]
    · rw [List.takeWhile_cons_of_neg ha, List.filter_cons_of_neg ha]
      refine (List.filter_eq_nil_iff.2 fun b hb hpb => ?_).symm
      exact ha (hrest.1 b hb hpb)

theorem dropWhile_eq_filter {p : α → Bool} {l : List α} (h : l.Pairwise (fun a b => p b → p a)) :
    l.dropWhile p = l.filter (fun a => !p a) := by
  induction l with
  | nil => rfl
  | cons a rest ih =>
    have hrest := List.pairwise_cons.1 h
    by_cases ha : p a
    · rw [List.dropWhile_cons_of_pos ha, List.filter_cons_of_neg (by simpa using ha), ih hrest.2]
    · rw [List.dropWhile_cons_of_neg ha, List.filter_cons_of_pos (by simpa using ha)]
      congr 1
      refine (List.filter_eq_self.2 fun b hb => ?_).symm
      have hb : ¬ p b := fun hpb => ha (hrest.1 b hb hpb)
      simpa using hb

end Lists

namespace Bytes

/-- A string of bytes is not above any continuation of it. -/
theorem compare_append_ne_lt (a b : Bytes) : compare (a ++ b) a ≠ .lt := by
  induction a with
  | nil => cases b <;> simp [List.compare_cons_nil]
  | cons x a ih =>
    have hx : compare x x = .eq := Std.ReflCmp.compare_self
    rw [List.cons_append, List.compare_cons_cons, hx]
    exact ih

/-- Whatever lies between two strings of bytes with a common beginning has it too. -/
theorem prefix_of_between {lead a b c : Bytes} (ha : lead <+: a) (hc : lead <+: c)
    (hab : compare a b ≠ .gt) (hbc : compare b c ≠ .gt) : lead <+: b := by
  induction lead generalizing a b c with
  | nil => exact List.nil_prefix
  | cons x lead ih =>
    obtain ⟨a', rfl⟩ := ha
    obtain ⟨c', rfl⟩ := hc
    cases b with
    | nil => exact absurd List.compare_cons_nil hab
    | cons y b =>
      rw [List.cons_append, List.compare_cons_cons] at hab hbc
      have hxy : compare x y ≠ .gt := fun e => hab (by rw [e]; rfl)
      have hyx : compare y x ≠ .gt := fun e => hbc (by rw [e]; rfl)
      have heq : compare x y = .eq := by
        cases e : compare x y with
        | lt => exact absurd (Std.OrientedCmp.gt_of_lt e) hyx
        | eq => rfl
        | gt => exact absurd e hxy
      obtain rfl : x = y := Std.LawfulEqOrd.eq_of_compare heq
      rw [heq] at hab hbc
      exact List.cons_prefix_cons.2
        ⟨rfl, ih (List.prefix_append lead a') (List.prefix_append lead c') hab hbc⟩

end Bytes

namespace Rows
variable {rows : Rows} {start lead : Bytes}

theorem pairwise_startsBefore (rows : Rows) (start : Bytes) :
    rows.entries.Pairwise (fun a b =>
      (compare b.1 start == .lt) = true → (compare a.1 start == .lt) = true) := by
  refine rows.ascending.imp fun {a b} hab hb => ?_
  simp only [beq_iff_eq] at hb ⊢
  exact Std.TransCmp.lt_trans hab hb

/-- A scan visits all rows from its start on that begin with its lead. -/
theorem scanFrom_eq_filter (h : lead <+: start) :
    rows.scanFrom start lead = rows.entries.filter (fun row =>
      compare row.1 start != .lt && lead.isPrefixOf row.1) := by
  have hstarts : rows.startingAt start =
      rows.entries.filter (fun row => compare row.1 start != .lt) :=
    dropWhile_eq_filter (pairwise_startsBefore rows start)
  have hbehind : (rows.startingAt start).Pairwise (fun a b =>
      lead.isPrefixOf b.1 = true → lead.isPrefixOf a.1 = true) := by
    rw [hstarts]
    refine (rows.ascending.filter _).imp_of_mem fun {a b} ha _ hab hb => ?_
    have hstart : compare start a.1 ≠ .gt := fun e => by
      have hlt := Std.OrientedCmp.lt_of_gt e
      have := (List.mem_filter.1 ha).2
      simp [hlt] at this
    rw [List.isPrefixOf_iff_prefix] at hb ⊢
    exact Bytes.prefix_of_between h hb hstart (by rw [hab]; decide)
  rw [scanFrom, takeWhile_eq_filter hbehind, hstarts, List.filter_filter]
  exact List.filter_congr fun row _ => Bool.and_comm _ _

theorem scan_eq_filter (rows : Rows) (lead : Bytes) :
    rows.scan lead = rows.entries.filter (fun row => lead.isPrefixOf row.1) := by
  rw [scan, scanFrom_eq_filter (List.prefix_refl lead)]
  refine List.filter_congr fun row _ => ?_
  by_cases h : lead <+: row.1
  · obtain ⟨rest, hrest⟩ := h
    have := Bytes.compare_append_ne_lt lead rest
    rw [← hrest]
    simpa using this
  · have hfalse : lead.isPrefixOf row.1 = false := by
      rwa [Bool.eq_false_iff, ne_eq, List.isPrefixOf_iff_prefix]
    simp [hfalse]

theorem mem_scan {row : Row} : row ∈ rows.scan lead ↔ rows.get? row.1 = some row.2 ∧
    lead <+: row.1 := by
  rw [scan_eq_filter, List.mem_filter, List.isPrefixOf_iff_prefix, OrderedMap.get?_eq_some_iff]

theorem get?_eraseAll (rows : Rows) (lead key : Bytes) :
    (rows.eraseAll lead).get? key = if lead <+: key then none else rows.get? key := by
  rw [eraseAll, OrderedMap.get?_filter]
  cases h : rows.get? key with
  | none => simp
  | some value =>
    have hdoomed : (rows.scan lead).any (fun row => row.1 == key) = true ↔ lead <+: key := by
      rw [List.any_eq_true]
      refine ⟨fun ⟨row, hrow, hkey⟩ => ?_, fun hlead => ⟨(key, value), mem_scan.2 ⟨h, hlead⟩, ?_⟩⟩
      · rw [← eq_of_beq hkey]
        exact (mem_scan.1 hrow).2
      · exact beq_self_eq_true key
    by_cases hlead : lead <+: key
    · simp [hlead, hdoomed.2 hlead]
    · simp [hlead, Bool.eq_false_iff.2 (mt hdoomed.1 hlead)]

end Rows

namespace Change

/-- What stands under the key after the change, given what stood there. -/
def effect (c : Change) (key : Bytes) (old : Option Bytes) : Option Bytes :=
  match c with
  | .put k value => if key = k then some value else old
  | .delete k => if key = k then none else old
  | .deleteAll lead => if lead <+: key then none else old

/-- Whether the change enters a row. -/
def isPut : Change → Bool
  | .put _ _ => true
  | _ => false

/-- Whether the change decides what stands under the key. -/
def Touches (key : Bytes) : Change → Prop
  | .put k _ => key = k
  | .delete k => key = k
  | .deleteAll lead => lead <+: key

instance (key : Bytes) : DecidablePred (Touches key)
  | .put _ _ => inferInstanceAs (Decidable (_ = _))
  | .delete _ => inferInstanceAs (Decidable (_ = _))
  | .deleteAll _ => inferInstanceAs (Decidable (_ <+: _))

theorem effect_of_not_touches {c : Change} {key : Bytes} (h : ¬ c.Touches key)
    (old : Option Bytes) : c.effect key old = old := by
  cases c <;> exact if_neg h

theorem effect_of_not_isPut {c : Change} {key : Bytes} (h : c.isPut = false)
    (old : Option Bytes) : c.effect key old = if c.Touches key then none else old := by
  cases c with
  | put k value => simp [isPut] at h
  | delete k => rfl
  | deleteAll lead => rfl

end Change

namespace Rows

theorem get?_make (rows : Rows) (c : Change) (key : Bytes) :
    (rows.make c).get? key = c.effect key (rows.get? key) := by
  cases c with
  | put k value => exact OrderedMap.get?_insert rows k value key
  | delete k => exact OrderedMap.get?_erase rows k key
  | deleteAll lead => exact get?_eraseAll rows lead key

/-- A batch acts on every key by itself. -/
theorem get?_apply (rows : Rows) (batch : Batch) (key : Bytes) :
    (rows.apply batch).get? key = batch.foldl (fun old c => c.effect key old) (rows.get? key) := by
  induction batch generalizing rows with
  | nil => rfl
  | cons c rest ih =>
    rw [apply, List.foldl_cons, List.foldl_cons, ← get?_make]
    exact ih (rows.make c)

theorem apply_append (rows : Rows) (a b : Batch) : rows.apply (a ++ b) = (rows.apply a).apply b :=
  List.foldl_append

theorem get?_apply_of_not_touches {batch : Batch} {key : Bytes}
    (h : ∀ c ∈ batch, ¬ c.Touches key) (rows : Rows) :
    (rows.apply batch).get? key = rows.get? key := by
  induction batch generalizing rows with
  | nil => rfl
  | cons c rest ih =>
    rw [apply, List.foldl_cons]
    refine (ih (fun d hd => h d (List.mem_cons_of_mem c hd)) (rows.make c)).trans ?_
    rw [get?_make, Change.effect_of_not_touches (h c List.mem_cons_self)]

/-- After removals alone the touched keys are gone and all others as before. -/
theorem get?_apply_removals {batch : Batch} (h : ∀ c ∈ batch, c.isPut = false) (rows : Rows)
    (key : Bytes) : (rows.apply batch).get? key =
      if ∃ c ∈ batch, c.Touches key then none else rows.get? key := by
  induction batch generalizing rows with
  | nil => simp [apply]
  | cons c rest ih =>
    have hrest := ih (fun d hd => h d (List.mem_cons_of_mem c hd)) (rows.make c)
    rw [apply, List.foldl_cons]
    refine hrest.trans ?_
    rw [get?_make, Change.effect_of_not_isPut (h c List.mem_cons_self)]
    by_cases hc : c.Touches key
    · simp [hc]
    · simp [hc]

/-- Rows entered by puts alone stand over those that were there. -/
theorem get?_apply_puts {batch : Batch} (h : ∀ c ∈ batch, c.isPut = true) (rows : Rows)
    (key : Bytes) : (rows.apply batch).get? key =
      ((apply .empty batch).get? key).or (rows.get? key) := by
  induction batch generalizing rows with
  | nil => rfl
  | cons c rest ih =>
    have hrest := ih fun d hd => h d (List.mem_cons_of_mem c hd)
    have hc := h c List.mem_cons_self
    have hmake (m : Rows) : (m.apply (c :: rest)).get? key =
        ((apply .empty rest).get? key).or ((m.make c).get? key) := hrest (m.make c)
    rw [hmake, hmake, Option.or_assoc]
    congr 1
    cases c with
    | put k value =>
      simp only [get?_make, Change.effect]
      by_cases hk : key = k
      · simp [hk]
      · simp [hk]
    | delete k => simp [Change.isPut] at hc
    | deleteAll lead => simp [Change.isPut] at hc

/-- A row stems from the batch or was there before. -/
theorem put_mem_of_get?_apply {batch : Batch} {rows : Rows} {key value : Bytes}
    (h : (rows.apply batch).get? key = some value) :
    .put key value ∈ batch ∨ rows.get? key = some value := by
  induction batch generalizing rows with
  | nil => exact .inr h
  | cons c rest ih =>
    rcases ih (show ((rows.make c).apply rest).get? key = some value from h) with hrest | hmake
    · exact .inl (List.mem_cons_of_mem c hrest)
    · rw [get?_make] at hmake
      cases c with
      | put k v =>
        simp only [Change.effect] at hmake
        by_cases hk : key = k
        · rw [if_pos hk, Option.some.injEq] at hmake
          subst hk hmake
          exact .inl List.mem_cons_self
        · rw [if_neg hk] at hmake
          exact .inr hmake
      | delete k =>
        simp only [Change.effect] at hmake
        split at hmake
        · cases hmake
        · exact .inr hmake
      | deleteAll lead =>
        simp only [Change.effect] at hmake
        split at hmake
        · cases hmake
        · exact .inr hmake

/-- What a batch of puts enters stays, unless it is entered again. -/
theorem exists_get?_apply {batch : Batch} (hputs : ∀ c ∈ batch, c.isPut = true) {rows : Rows}
    {key value : Bytes} (h : .put key value ∈ batch) :
    ∃ value', (rows.apply batch).get? key = some value' := by
  induction batch generalizing rows with
  | nil => simp at h
  | cons c rest ih =>
    have hrest : ∀ d ∈ rest, d.isPut = true := fun d hd => hputs d (List.mem_cons_of_mem c hd)
    rcases List.mem_cons.1 h with rfl | h
    · have hmake : (rows.make (.put key value)).get? key = some value := by
        rw [get?_make, Change.effect, if_pos rfl]
      have happly : (rows.apply (.put key value :: rest)).get? key =
          ((apply .empty rest).get? key).or (some value) := by
        rw [← hmake]
        exact get?_apply_puts hrest _ key
      rw [happly]
      cases (apply .empty rest).get? key <;> simp
    · exact ih hrest h

end Rows
end PhpIndex
