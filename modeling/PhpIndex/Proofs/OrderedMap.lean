import PhpIndex.OrderedMap

/-!
# Facts about ordered maps

What `get?` answers after entries were dropped, that a map is known by its answers, and that a
list in ascending order is the list of entries of the map made from it.
-/
namespace PhpIndex.OrderedMap
variable {κ ν : Type} [Ord κ]

theorem mem_keys {m : OrderedMap κ ν} {k : κ} : k ∈ m.keys ↔ ∃ v, (k, v) ∈ m.entries := by
  simp [keys]

/-- The map with every value replaced by its image. -/
def mapValues (f : ν → ν') (m : OrderedMap κ ν) : OrderedMap κ ν' :=
  ⟨m.entries.map (fun e => (e.1, f e.2)), by
    rw [List.pairwise_map]
    exact m.ascending⟩

theorem lookup_mapValues (f : ν → ν') (k : κ) (l : List (κ × ν)) :
    lookup k (l.map (fun e => (e.1, f e.2))) = (lookup k l).map f := by
  induction l with
  | nil => rfl
  | cons e rest ih =>
    simp only [List.map_cons, lookup]
    split
    · rfl
    · rfl
    · exact ih

theorem get?_mapValues (f : ν → ν') (m : OrderedMap κ ν) (k : κ) :
    (m.mapValues f).get? k = (m.get? k).map f := lookup_mapValues f k m.entries

variable [Std.TransOrd κ]

theorem not_compare_self_lt (k : κ) : ¬ compare k k = .lt := by
  have h : compare k k = .eq := Std.ReflCmp.compare_self
  rw [h]
  decide

theorem nodup_of_ascending {l : List (κ × ν)}
    (h : l.Pairwise (fun a b => compare a.1 b.1 = .lt)) : l.Nodup := by
  refine h.imp fun {a b} hab e => ?_
  subst e
  exact not_compare_self_lt _ hab

/-- Two lists in ascending order with the same members are the same list. -/
theorem eq_of_mem_iff {l l' : List (κ × ν)}
    (h : l.Pairwise (fun a b => compare a.1 b.1 = .lt))
    (h' : l'.Pairwise (fun a b => compare a.1 b.1 = .lt)) (hmem : ∀ e, e ∈ l ↔ e ∈ l') :
    l = l' := by
  refine List.Perm.eq_of_pairwise ?_ h h' ?_
  · intro a b _ _ hab hba
    exact absurd (Std.TransCmp.lt_trans hab hba) (not_compare_self_lt _)
  · exact (List.perm_ext_iff_of_nodup (nodup_of_ascending h) (nodup_of_ascending h')).2 hmem

theorem nodup_keys (m : OrderedMap κ ν) : m.keys.Nodup := by
  rw [keys, List.Nodup, List.pairwise_map]
  refine m.ascending.imp fun {a b} hab e => ?_
  rw [e] at hab
  exact not_compare_self_lt _ hab

section Lawful
variable [Std.LawfulEqOrd κ]

theorem get?_eq_none_iff {m : OrderedMap κ ν} {k : κ} :
    m.get? k = none ↔ ∀ v, (k, v) ∉ m.entries := by
  simp only [Option.eq_none_iff_forall_ne_some, ne_eq, get?_eq_some_iff]

/-- A dropped entry is answered no more, and all others as before. -/
theorem get?_filter (m : OrderedMap κ ν) (p : κ → ν → Bool) (k : κ) :
    (m.filter p).get? k = (m.get? k).filter (p k) := by
  apply Option.ext
  intro v
  rw [get?_eq_some_iff, mem_filter_entries, Option.filter_eq_some_iff, get?_eq_some_iff]

theorem get?_erase [DecidableEq κ] (m : OrderedMap κ ν) (k j : κ) :
    (m.erase k).get? j = if j = k then none else m.get? j := by
  rw [erase, get?_filter]
  by_cases h : j = k
  · subst h
    simp [Std.ReflCmp.compare_self]
  · have hne : compare k j ≠ .eq := fun e => h (Std.LawfulEqOrd.eq_of_compare e).symm
    cases m.get? j <;> simp [h, hne]

theorem ext_get? {a b : OrderedMap κ ν} (h : ∀ k, a.get? k = b.get? k) : a = b := by
  refine ext_entries (eq_of_mem_iff a.ascending b.ascending fun e => ?_)
  rw [← get?_eq_some_iff, ← get?_eq_some_iff, h]

/-- Where one key counts and no other, a list made of the entries is what that key makes of it. -/
theorem flatMap_entries {m : OrderedMap κ ν} (k : κ) {f : κ × ν → List α}
    (h : ∀ e ∈ m.entries, e.1 ≠ k → f e = []) :
    m.entries.flatMap f = (m.get? k).elim [] fun v => f (k, v) := by
  cases hget : m.get? k with
  | none =>
    refine List.flatMap_eq_nil_iff.2 fun e he => h e he ?_
    rintro rfl
    exact get?_eq_none_iff.1 hget e.2 he
  | some v =>
    obtain ⟨front, back, hsplit⟩ := List.append_of_mem ((get?_eq_some_iff m k v).1 hget)
    have hascending := m.ascending
    rw [hsplit] at hascending
    obtain ⟨-, hback, hfront⟩ := List.pairwise_append.1 hascending
    have hother : ∀ e, e ∈ front ∨ e ∈ back → f e = [] := by
      intro e he
      refine h e (by rw [hsplit]; rcases he with he | he <;> simp [he]) ?_
      rintro rfl
      rcases he with he | he
      · exact not_compare_self_lt _ (hfront e he (e.1, v) List.mem_cons_self)
      · exact not_compare_self_lt _ ((List.pairwise_cons.1 hback).1 e he)
    rw [hsplit, List.flatMap_append, List.flatMap_cons,
      List.flatMap_eq_nil_iff.2 fun e he => hother e (.inl he),
      List.flatMap_eq_nil_iff.2 fun e he => hother e (.inr he)]
    simp

end Lawful

/-- A key above all others goes to the end. -/
theorem insertEntry_append {k : κ} {v : ν} {l : List (κ × ν)}
    (h : ∀ e ∈ l, compare e.1 k = .lt) : insertEntry k v l = l ++ [(k, v)] := by
  induction l with
  | nil => rfl
  | cons e rest ih =>
    have hgt : compare k e.1 = .gt := Std.OrientedCmp.gt_of_lt (h e List.mem_cons_self)
    simp only [insertEntry, hgt, List.cons_append]
    rw [ih fun e' he' => h e' (List.mem_cons_of_mem e he')]

theorem entries_foldl_insert {l : List (κ × ν)} {m : OrderedMap κ ν}
    (h : (m.entries ++ l).Pairwise (fun a b => compare a.1 b.1 = .lt)) :
    (l.foldl (fun m e => m.insert e.1 e.2) m).entries = m.entries ++ l := by
  induction l generalizing m with
  | nil => simp
  | cons e rest ih =>
    have hbelow : ∀ e' ∈ m.entries, compare e'.1 e.1 = .lt := fun e' he' =>
      (List.pairwise_append.1 h).2.2 e' he' e List.mem_cons_self
    have hinsert : (m.insert e.1 e.2).entries = m.entries ++ [e] := insertEntry_append hbelow
    rw [List.foldl_cons, ih, hinsert, List.append_assoc, List.singleton_append]
    rwa [hinsert, List.append_assoc, List.singleton_append]

theorem entries_ofList {l : List (κ × ν)}
    (h : l.Pairwise (fun a b => compare a.1 b.1 = .lt)) : (ofList l).entries = l :=
  entries_foldl_insert (m := empty) h

end PhpIndex.OrderedMap
