import PhpIndex.Store.Table
import Mathlib.Data.List.Forall2

/-!
# Running queries

What the reads of a query answer, step by step, and that a query for every item of a list
answers if each of its questions does.
-/
namespace PhpIndex

theorem bind_eq_ok {x : Except ε α} {f : α → Except ε β} {b : β} (h : x >>= f = .ok b) :
    ∃ a, x = .ok a ∧ f a = .ok b := by
  cases x with
  | error e => cases h
  | ok a => exact ⟨a, rfl, h⟩

theorem map_eq_ok {x : Except ε α} {f : α → β} {b : β} (h : x.map f = .ok b) :
    ∃ a, x = .ok a ∧ f a = b := by
  cases x with
  | error e => cases h
  | ok a => exact ⟨a, rfl, Except.ok.inj h⟩

theorem mapError_eq_ok {ε' : Type} {x : Except ε α} {f : ε → ε'} {a : α} :
    x.mapError f = .ok a ↔ x = .ok a := by
  cases x with
  | error e => exact ⟨nofun, nofun⟩
  | ok b => exact ⟨fun h => congrArg _ (Except.ok.inj h), fun h => congrArg _ (Except.ok.inj h)⟩

/-- A list is mapped if every item is. -/
theorem mapM_eq_ok {f : α → Except ε β} {l : List α} (h : ∀ a ∈ l, ∃ b, f a = .ok b) :
    ∃ bs, l.mapM f = .ok bs ∧ List.Forall₂ (fun a b => f a = .ok b) l bs := by
  induction l with
  | nil => exact ⟨[], rfl, .nil⟩
  | cons a rest ih =>
    obtain ⟨b, hb⟩ := h a List.mem_cons_self
    obtain ⟨bs, hbs, hall⟩ := ih fun c hc => h c (List.mem_cons_of_mem a hc)
    refine ⟨b :: bs, ?_, .cons hb hall⟩
    rw [List.mapM_cons, hb, hbs]
    rfl

theorem mapM_eq_map {f : α → Except ε β} {g : α → β} {l : List α}
    (h : ∀ a ∈ l, f a = .ok (g a)) : l.mapM f = .ok (l.map g) := by
  induction l with
  | nil => rfl
  | cons a rest ih =>
    rw [List.mapM_cons, h a List.mem_cons_self, ih fun b hb => h b (List.mem_cons_of_mem a hb)]
    rfl

/-- A list that is mapped is mapped item by item. -/
theorem forall₂_of_mapM_eq_ok {f : α → Except ε β} {l : List α} {bs : List β}
    (h : l.mapM f = .ok bs) : List.Forall₂ (fun a b => f a = .ok b) l bs := by
  induction l generalizing bs with
  | nil =>
    cases h
    exact .nil
  | cons a rest ih =>
    rw [List.mapM_cons] at h
    cases ha : f a with
    | error e =>
      rw [ha] at h
      cases h
    | ok b =>
      rw [ha] at h
      cases hrest : rest.mapM f with
      | error e =>
        rw [hrest] at h
        cases h
      | ok bs' =>
        rw [hrest] at h
        cases h
        exact .cons ha (ih hrest)

theorem mapM_of_forall₂ {f : α → Except ε β} {l : List α} {bs : List β}
    (h : List.Forall₂ (fun a b => f a = .ok b) l bs) : l.mapM f = .ok bs := by
  induction h with
  | nil => rfl
  | cons ha _ ih =>
    rw [List.mapM_cons, ha, ih]
    rfl

section Matching
variable {R : α → β → Prop} {l : List α} {l' : List β}

theorem exists_left_of_forall₂ (h : List.Forall₂ R l l') {b : β} (hb : b ∈ l') :
    ∃ a ∈ l, R a b := by
  induction h with
  | nil => exact absurd hb List.not_mem_nil
  | @cons a c rest rest' hac _ ih =>
    rcases List.mem_cons.1 hb with rfl | hb
    · exact ⟨a, List.mem_cons_self, hac⟩
    · obtain ⟨d, hd, hdb⟩ := ih hb
      exact ⟨d, List.mem_cons_of_mem a hd, hdb⟩

theorem exists_right_of_forall₂ (h : List.Forall₂ R l l') {a : α} (ha : a ∈ l) :
    ∃ b ∈ l', R a b := by
  induction h with
  | nil => exact absurd ha List.not_mem_nil
  | @cons c b rest rest' hcb _ ih =>
    rcases List.mem_cons.1 ha with rfl | ha
    · exact ⟨b, List.mem_cons_self, hcb⟩
    · obtain ⟨d, hd, hda⟩ := ih ha
      exact ⟨d, List.mem_cons_of_mem b hd, hda⟩

/-- If partners determine the items, the list is an image of the other. -/
theorem eq_map_of_forall₂ {f : β → α} (h : List.Forall₂ R l l')
    (hf : ∀ a ∈ l, ∀ b, R a b → a = f b) : l = l'.map f := by
  induction h with
  | nil => rfl
  | @cons a b rest rest' hab _ ih =>
    rw [List.map_cons, ← hf a List.mem_cons_self b hab,
      ← ih fun c hc => hf c (List.mem_cons_of_mem a hc)]

end Matching

namespace Query
variable (rows : Rows)

theorem run_forEach (f : α → Query β) (l : List α) :
    (forEach f l).run rows = l.mapM (fun a => (f a).run rows) := by
  induction l with
  | nil => rfl
  | cons a rest ih =>
    rw [forEach, List.mapM_cons, run_bind]
    refine congrArg _ (funext fun b => ?_)
    rw [run_bind, ih]
    rfl

/-- A query for every item answers if it does for each of them. -/
theorem run_forEach_eq_map {f : α → Query β} {g : α → β} {l : List α}
    (h : ∀ a ∈ l, (f a).run rows = .ok (g a)) : (forEach f l).run rows = .ok (l.map g) := by
  rw [run_forEach]
  exact mapM_eq_map h

theorem run_get (t : Table) (k : Bytes) : (t.get k).run rows = .ok (rows.get? (t.key k)) := rfl

theorem run_scan (t : Table) (lead : Bytes) : (t.scan lead).run rows =
    .ok ((rows.scan (t.key lead)).map fun row => (row.1.drop t.lead.length, row.2)) := rfl

theorem run_ofFormat (x : Except FormatError α) :
    (ofFormat x).run rows = x.mapError StoreError.format := by
  cases x <;> rfl

theorem run_bind_eq_ok {q : Query α} {f : α → Query β} {a : α} (h : q.run rows = .ok a) :
    (q >>= f).run rows = (f a).run rows := by
  rw [run_bind, h]
  rfl

end Query
end PhpIndex
