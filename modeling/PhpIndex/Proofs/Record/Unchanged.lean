import PhpIndex.Proofs.Record.Fixed
import PhpIndex.Proofs.Symbol.Normal

/-!
# Records that storing changes

The normal form of a record is the record itself only if it is fixed: nothing but the spelling and
the mark of its type names, a name that a union has twice, and half a location can get lost. So a
record comes back unchanged just if it is fixed.
Main statements: `ofRecord_symbol_iff`, `ofRecord_reference_iff`, `ofRecord_variableScope_iff`.
-/
namespace PhpIndex

theorem forall_mem_of_map_eq_self {f : α → α} {l : List α} (h : l.map f = l) :
    ∀ a ∈ l, f a = a := by
  have hid : l.map f = l.map id := h.trans (List.map_id l).symm
  exact List.map_inj_left.1 hid

theorem forall_mem_of_option_map_eq_self {f : α → α} {o : Option α} (h : o.map f = o) :
    ∀ a ∈ o, f a = a := by
  rintro a rfl
  exact Option.some.inj h

namespace Location

theorem normal_eq_self_iff {l : Location} : l.normal = l ↔ l.Whole := by
  refine ⟨fun h => ?_, Whole.normal⟩
  cases hempty : l.isEmpty with
  | false => exact .inr hempty
  | true =>
    rw [Location.normal, if_pos hempty] at h
    exact .inl h.symm

end Location

namespace TypeUnion

theorem foldl_push_sublist (ts : List TypeName) (u : TypeUnion) :
    (ts.foldl push u).types.Sublist (u.types ++ ts) := by
  induction ts generalizing u with
  | nil => rw [List.append_nil]; exact List.Sublist.refl _
  | cons t rest ih =>
    refine (ih (u.push t)).trans ?_
    unfold push
    split
    · exact (List.sublist_cons_self t rest).append_left u.types
    · rw [List.append_assoc]
      exact List.Sublist.refl _

theorem nodup_names_foldl_push (ts : List TypeName) {u : TypeUnion} (h : u.names.Nodup) :
    (ts.foldl push u).names.Nodup := by
  induction ts generalizing u with
  | nil => exact h
  | cons t rest ih =>
    refine ih ?_
    rw [names_push]
    split
    · exact h
    next hnew =>
      refine List.nodup_append.2 ⟨h, List.pairwise_singleton _ _, fun a ha b hb => ?_⟩
      rw [List.mem_singleton.1 hb]
      rintro rfl
      exact hnew ha

theorem normal_eq_self_iff {u : TypeUnion} : u.normal = u ↔ u.Fixed := by
  refine ⟨fun h => ⟨fun t ht => ?_, ?_⟩, Fixed.normal⟩
  · -- No name was dropped, as the length is the same.
    have hsublist : u.types.Sublist (u.types.map TypeName.normal) := by
      have hfold := foldl_push_sublist (u.types.map TypeName.normal) empty
      rwa [show (u.types.map TypeName.normal).foldl push empty = u from h] at hfold
    have htypes := hsublist.eq_of_length (List.length_map TypeName.normal).symm
    exact TypeName.normal_eq_self_iff.1 (forall_mem_of_map_eq_self htypes.symm t ht)
  · rw [← h]
    exact nodup_names_foldl_push _ List.nodup_nil

end TypeUnion

theorem Parameter.fixed_of_normal {p : Parameter} (h : p.normal = p) : p.Fixed :=
  ⟨TypeUnion.normal_eq_self_iff.1 (congrArg Parameter.types h),
    Location.normal_eq_self_iff.1 (congrArg Parameter.location h)⟩

theorem Signature.fixed_of_normal {s : Signature} (h : s.normal = s) : s.Fixed where
  parameters p hp :=
    Parameter.fixed_of_normal (forall_mem_of_map_eq_self (congrArg Signature.parameters h) p hp)
  returnTypes := TypeUnion.normal_eq_self_iff.1 (congrArg Signature.returnTypes h)

namespace Symbol

theorem valueTypes?_normal (s : Symbol) :
    s.normal.valueTypes? = s.valueTypes?.map TypeUnion.normal := by
  cases s <;> rfl

theorem normal_eq_self_iff {s : Symbol} : s.normal = s ↔ s.Fixed := by
  refine ⟨fun h => ⟨?_, fun g hg => ?_, fun u hu => ?_⟩, Fixed.normal⟩
  · rw [← Location.normal_eq_self_iff, ← location_normal, h]
  · have hsignature := congrArg signature? h
    rw [signature?_normal] at hsignature
    exact Signature.fixed_of_normal (forall_mem_of_option_map_eq_self hsignature g hg)
  · have htypes := congrArg valueTypes? h
    rw [valueTypes?_normal] at htypes
    exact TypeUnion.normal_eq_self_iff.1 (forall_mem_of_option_map_eq_self htypes u hu)

end Symbol

theorem Reference.normal_eq_self_iff {r : Reference} : r.normal = r ↔ r.Fixed where
  mp h :=
    { types := TypeUnion.normal_eq_self_iff.1 (congrArg Reference.types h)
      location := Location.normal_eq_self_iff.1 (congrArg Reference.location h)
      scope := fun u hu => TypeUnion.normal_eq_self_iff.1
        (forall_mem_of_option_map_eq_self (congrArg Reference.scope? h) u hu) }
  mpr := Fixed.normal

theorem VariableScope.normal_eq_self_iff {s : VariableScope} : s.normal = s ↔ s.Fixed where
  mp h :=
    { location := Location.normal_eq_self_iff.1 (congrArg VariableScope.location h)
      types := fun e he => by
        have hentries := congrArg (fun s => s.types.entries) h
        have heq := forall_mem_of_map_eq_self hentries e he
        exact TypeUnion.normal_eq_self_iff.1 (congrArg Prod.snd heq) }
  mpr := Fixed.normal

/-! ## Records -/

theorem ofRecord_symbol_iff {s : Symbol} (h : s.Fits) :
    ofRecord (toRecord s) = .ok s ↔ s.Fixed := by
  rw [ofRecord_symbol h, Except.ok.injEq, Symbol.normal_eq_self_iff]

theorem ofRecord_reference_iff {r : Reference} (h : r.Fits) :
    ofRecord (toRecord r) = .ok r ↔ r.Fixed := by
  rw [ofRecord_reference h, Except.ok.injEq, Reference.normal_eq_self_iff]

theorem ofRecord_variableScope_iff {s : VariableScope} (h : s.Fits) :
    ofRecord (toRecord s) = .ok s ↔ s.Fixed := by
  rw [ofRecord_variableScope h, Except.ok.injEq, VariableScope.normal_eq_self_iff]

end PhpIndex
