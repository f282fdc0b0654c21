import PhpIndex.Proofs.Extract.Operands

/-!
# The scopes around a function

What is read in a function binds variables in the scope of that function, and in those of the
functions in it. The scopes around stay as they are, whatever the tree, and what a scope was seen
to know it never loses.
Main statements: `widens_walk`, `widens_leave_function`.
-/
namespace PhpIndex

/-- Whether the union has all the types of another one, which are told apart by their names. -/
def TypeUnion.Covers (u v : TypeUnion) : Prop := ∀ t ∈ v.types, u.contains t.name = true

namespace TypeUnion.Covers
variable {u v w : TypeUnion}

theorem refl (u : TypeUnion) : u.Covers u := fun t ht =>
  (u.contains_iff t.name).2 (List.mem_map_of_mem ht)

theorem trans (huv : u.Covers v) (hvw : v.Covers w) : u.Covers w := by
  intro t ht
  obtain ⟨t', ht', hname⟩ := List.mem_map.1 ((v.contains_iff t.name).1 (hvw t ht))
  exact hname ▸ huv t' ht'

theorem merge_left (u v : TypeUnion) : (u.merge v).Covers u := fun t ht =>
  contains_foldl_push v.types (.inl (refl u t ht))

theorem merge_right (u v : TypeUnion) : (u.merge v).Covers v := fun t ht =>
  contains_foldl_push v.types (.inr ⟨t, ht, rfl⟩)

end TypeUnion.Covers

namespace VariableScope
variable {a b c : VariableScope}

/-- Whether the variable is bound to these types at least. -/
def Knows (c : VariableScope) (name : String) (types : TypeUnion) : Prop :=
  ∃ known, c.get? name = some known ∧ known.Covers types

/-- Whether all that is known is known in another scope, of the same function. -/
structure Below (a b : VariableScope) : Prop where
  location : b.location = a.location
  knows : ∀ {name types}, a.Knows name types → b.Knows name types

theorem Below.refl (a : VariableScope) : a.Below a := ⟨rfl, id⟩

theorem Below.trans (hab : a.Below b) (hbc : b.Below c) : a.Below c :=
  ⟨hbc.location.trans hab.location, fun h => hbc.knows (hab.knows h)⟩

theorem knows_bind (c : VariableScope) (name : String) (types : TypeUnion) :
    (c.bind name types).Knows name types := by
  refine ⟨((c.get? name).getD .empty).merge types, ?_, .merge_right _ _⟩
  rw [get?_bind, if_pos rfl]

theorem below_bind (c : VariableScope) (name : String) (types : TypeUnion) :
    c.Below (c.bind name types) := by
  refine ⟨rfl, ?_⟩
  rintro other wanted ⟨known, hknown, hcovers⟩
  by_cases hkey : key other = key name
  · have hbound : c.get? name = some known := by rw [get?, ← hkey, ← get?, hknown]
    refine ⟨known.merge types, ?_, .trans (.merge_left known types) hcovers⟩
    rw [get?_bind, if_pos hkey, hbound, Option.getD_some]
  · refine ⟨known, ?_, hcovers⟩
    rw [get?_bind, if_neg hkey, hknown]

end VariableScope

namespace Extract

/-- Whether the scopes around the innermost one are the same, where a function is open, and that one
knows as much as before. -/
structure State.Widens (s s' : State) : Prop where
  uri : s'.uri = s.uri
  source : s'.source = s.source
  finished : s.finished ⊆ s'.finished
  scopes : ∀ {inner outer}, s.scopes = inner :: outer → s'.globals = s.globals ∧
    ∃ wider, s'.scopes = wider :: outer ∧ inner.Below wider

namespace State.Widens
variable {s s' s'' : State}

theorem of_eq (huri : s'.uri = s.uri) (hsource : s'.source = s.source)
    (hglobals : s'.globals = s.globals) (hscopes : s'.scopes = s.scopes)
    (hfinished : s'.finished = s.finished) : s.Widens s' where
  uri := huri
  source := hsource
  finished := hfinished ▸ List.Subset.refl _
  scopes h := ⟨hglobals, _, hscopes.trans h, .refl _⟩

theorem trans (h : s.Widens s') (h' : s'.Widens s'') : s.Widens s'' where
  uri := h'.uri.trans h.uri
  source := h'.source.trans h.source
  finished := List.Subset.trans h.finished h'.finished
  scopes hs := by
    obtain ⟨hglobals, wider, hwider, hbelow⟩ := h.scopes hs
    obtain ⟨hglobals', widest, hwidest, hbelow'⟩ := h'.scopes hwider
    exact ⟨hglobals'.trans hglobals, widest, hwidest, hbelow.trans hbelow'⟩

end State.Widens

theorem small_widens : Small State.Widens where
  refl _ := .of_eq rfl rfl rfl rfl rfl
  trans hab hbc := hab.trans hbc
  imports _ _ := .of_eq rfl rfl rfl rfl rfl
  doc _ _ := .of_eq rfl rfl rfl rfl rfl
  bind s name types := by
    unfold State.bind
    split
    next hnone => exact ⟨rfl, rfl, List.Subset.refl _, fun h => by rw [hnone] at h; cases h⟩
    next scope outer hscopes =>
      refine ⟨rfl, rfl, List.Subset.refl _, fun h => ?_⟩
      rw [hscopes] at h
      cases h
      exact ⟨rfl, _, rfl, scope.below_bind name types⟩
  parent s parent? := by
    unfold State.modifyClass
    split <;> exact .of_eq rfl rfl rfl rfl rfl

namespace State

theorem widens_record (s : State) (item : Item) : s.Widens (s.record item) := by
  unfold record
  split
  · exact .of_eq rfl rfl rfl rfl rfl
  · split <;> exact .of_eq rfl rfl rfl rfl rfl
  · exact .of_eq rfl rfl rfl rfl rfl

/-- A function that is left has its scope among the finished ones, and the scopes around it are
those that were there when it was entered. -/
theorem Widens.close {s s' : State} {scope : VariableScope} (h : (s.openScope scope).Widens s') :
    s.Widens s'.closeScope ∧ ∃ last ∈ s'.closeScope.finished, scope.Below last := by
  obtain ⟨hglobals, last, hlast, hbelow⟩ := h.scopes rfl
  have hclose : s'.closeScope =
      { s' with scopes := s.scopes, finished := s'.finished ++ [last] } := by
    unfold closeScope
    rw [hlast]
  rw [hclose]
  refine ⟨⟨h.uri, h.source, ?_, fun hs => ⟨hglobals, _, hs, .refl _⟩⟩, last, ?_, hbelow⟩
  · exact List.Subset.trans h.finished (List.subset_append_left _ _)
  · exact List.mem_append_right _ List.mem_cons_self

end State

/-! ## Handing items around -/

theorem Construct.widens_accept (construct : Construct) (item : Item) (place : Place) (s : State) :
    s.Widens ((construct.accept item place).run s).2 := by
  rcases small_widens.accept construct item place s with ⟨h, -⟩ | ⟨-, -, _, _, _, -, -, h⟩
  · exact h
  · rw [h]
    unfold State.modifyClass
    split <;> exact .of_eq rfl rfl rfl rfl rfl

theorem widens_offer (item : Item) (place : Place) (around : Open) (s : State) :
    s.Widens ((offer item place around).run s).2 := by
  induction around generalizing place s with
  | nil => exact small_widens.refl s
  | cons construct? outer ih =>
    cases construct? with
    | none =>
      unfold offer
      split
      · exact small_widens.refl s
      · exact ih .deeper s
    | some construct =>
      have haccept := construct.widens_accept item place s
      unfold offer
      rcases hrun : (construct.accept item place).run s with ⟨⟨next, taken⟩, s'⟩
      rw [hrun] at haccept
      rw [run_bind_eq hrun]
      simp only
      split
      · exact haccept
      · exact haccept.trans (ih .deeper s')

theorem widens_hand (items : List Item) (field? : Option String) (around : Open) (s : State) :
    s.Widens ((hand items field? around).run s).2 := by
  unfold hand
  induction items generalizing around s with
  | nil => exact small_widens.refl s
  | cons item rest ih =>
    rw [List.foldlM_cons]
    exact ((s.widens_record item).trans (widens_offer item _ around _)).trans (ih _ _)

/-! ## Functions that are open -/

theorem Construct.isCallable_accept (construct : Construct) (item : Item) (place : Place)
    (s : State) : ((construct.accept item place).run s).1.1.isCallable = construct.isCallable := by
  cases construct with
  | «alias» name? =>
    cases item with
    | _ => rfl
  | _ => rfl

namespace Open

theorem sorts_offer (item : Item) (place : Place) (around : Open) (s : State) :
    ((offer item place around).run s).1.sorts = around.sorts := by
  induction around generalizing place s with
  | nil => rfl
  | cons construct? outer ih =>
    cases construct? with
    | none =>
      unfold offer
      split
      · rfl
      · exact congrArg (false :: ·) (ih .deeper s)
    | some construct =>
      have haccept := construct.isCallable_accept item place s
      unfold offer
      rcases hrun : (construct.accept item place).run s with ⟨⟨next, taken⟩, s'⟩
      rw [hrun] at haccept
      rw [run_bind_eq hrun]
      simp only
      split
      · exact congrArg (· :: sorts outer) haccept
      · exact (congrArg (· :: _) haccept).trans
          (congrArg (construct.isCallable :: ·) (ih .deeper s'))

theorem sorts_hear (around : Open) (offers : List Offer) :
    (hear around offers).sorts = around.sorts := by
  unfold hear
  induction offers generalizing around with
  | nil => rfl
  | cons o rest ih => exact (ih _).trans (sorts_offer o.item o.place around o.state)

/-- Behind the children of a node its construct is still a function, or still none. -/
theorem exists_walkAll (trees : List SyntaxTree) (surroundings : Surroundings)
    (construct? : Option Construct) (around : Open) (s : State) :
    ∃ next? next, ((walkAll surroundings (construct? :: around) trees).run s).1 = next? :: next ∧
      next?.any Construct.isCallable = construct?.any Construct.isCallable := by
  have hsorts := sorts_hear (construct? :: around)
    (offersIn surroundings (construct? :: around) s trees)
  rw [← run_walkAll_eq_hear] at hsorts
  obtain ⟨next?, next, hnext, hsort, -⟩ := List.map_eq_cons_iff.1 hsorts
  exact ⟨next?, next, hnext, hsort⟩

end Open

theorem widens_enter {tree : SyntaxTree} (h : tree.isFunction = false) (s : State) :
    s.Widens ((enter tree).run s).2 := by
  rw [SyntaxTree.isFunction, ← Role.any_ofKind?] at h
  unfold enter
  cases hrole : Role.ofKind? tree.kind with
  | none => exact small_widens.quiet.takeDoc _ _ s
  | some role =>
    rw [hrole] at h
    have hstart : s.Widens ((role.start tree).run s).2 := by
      cases role with
      | callable sort => cases h
      | _ => exact .of_eq rfl rfl rfl rfl rfl
    exact hstart.trans (small_widens.quiet.takeDoc _ _ _)

/-- Entering a function opens a scope at its node. -/
theorem enter_function {tree : SyntaxTree} (h : tree.isFunction = true) (s : State) :
    ∃ scope, scope.location = .of s.uri tree.range ∧
      (s.openScope scope).Widens ((enter tree).run s).2 := by
  rw [SyntaxTree.isFunction, ← Role.any_ofKind?] at h
  unfold enter
  cases hrole : Role.ofKind? tree.kind with
  | none =>
    rw [hrole] at h
    cases h
  | some role =>
    rw [hrole] at h
    cases role with
    | callable sort =>
      exact ⟨_, Callable.location_scopeFor sort tree.range s, small_widens.quiet.takeDoc _ _ _⟩
    | _ => cases h

theorem widens_leave {construct? : Option Construct}
    (h : construct?.any Construct.isCallable = false) (field? : Option String) (range : Range)
    (around : Open) (s : State) : s.Widens ((leave construct? field? range around).run s).2 := by
  cases construct? with
  | none => exact small_widens.refl s
  | some construct =>
    have hfinish : s.Widens ((construct.finish range).run s).2 := by
      cases hmark : construct.mark with
      | other => exact small_widens.finish hmark range s
      | function =>
        cases construct with
        | callable c => cases h
        | _ => cases hmark
      | «class» sort? name? =>
        cases construct with
        | classBody c =>
          rw [state_finish_classBody]
          exact .of_eq rfl rfl rfl rfl rfl
        | _ => cases hmark
    exact hfinish.trans (widens_hand _ field? around _)

/-- Leaving a function finishes its scope. -/
theorem widens_leave_function {construct? : Option Construct}
    (h : construct?.any Construct.isCallable = true) (field? : Option String) (range : Range)
    (around : Open) {s s' : State} {scope : VariableScope} (hs : (s.openScope scope).Widens s') :
    s.Widens ((leave construct? field? range around).run s').2 ∧
      ∃ last ∈ ((leave construct? field? range around).run s').2.finished, scope.Below last := by
  cases construct? with
  | none => cases h
  | some construct =>
    cases construct with
    | callable c =>
      obtain ⟨hclose, last, hlast, hbelow⟩ := hs.close
      rw [← state_finish_callable c range] at hclose hlast
      have hhand := widens_hand (((Construct.callable c).finish range).run s').1 field? around
        (((Construct.callable c).finish range).run s').2
      exact ⟨hclose.trans hhand, last, hhand.finished hlast, hbelow⟩
    | _ => cases h

/-! ## Reading -/

mutual

/-- Reading a tree leaves the scopes around a function as they were. -/
theorem widens_walk : (tree : SyntaxTree) → (surroundings : Surroundings) → (around : Open) →
    (s : State) → s.Widens ((walk surroundings around tree).run s).2
  | .node kind field? range children, surroundings, around, s => by
    have hnoted := small_widens.quiet.noteComment kind range s
    cases hatom : atom? kind field? range surroundings (noteComment kind range s) with
    | some item =>
      obtain ⟨doc?, hrun⟩ := run_walk_atom around children hatom
      rw [hrun]
      exact (hnoted.trans (small_widens.doc _ doc?)).trans (widens_hand [item] field? around _)
    | none =>
      cases children with
      | nil =>
        rw [run_walk_leaf hatom]
        split
        · exact hnoted
        · exact hnoted.trans (widens_hand _ field? around _)
      | cons tree rest =>
        refine hnoted.trans ?_
        have hcallable := enter_fst (.node kind field? range (tree :: rest))
          (noteComment kind range s)
        rcases henter : (enter (.node kind field? range (tree :: rest))).run
          (noteComment kind range s) with ⟨construct?, s₁⟩
        have hinside := widens_walkAll (tree :: rest) ⟨some kind, none⟩ (construct? :: around) s₁
        obtain ⟨next?, next, hnext, hsort⟩ :=
          Open.exists_walkAll (tree :: rest) ⟨some kind, none⟩ construct? around s₁
        rcases hwalk : (walkAll ⟨some kind, none⟩ (construct? :: around) (tree :: rest)).run s₁
          with ⟨next', s₂⟩
        rw [hwalk] at hinside hnext
        simp only at hinside hnext
        subst hnext
        rw [henter] at hcallable
        rw [run_walk_node hatom rfl henter hwalk]
        cases hfunction : (SyntaxTree.node kind field? range (tree :: rest)).isFunction with
        | false =>
          have hentered := widens_enter hfunction (noteComment kind range s)
          rw [henter] at hentered
          have hplain : next?.any Construct.isCallable = false :=
            hsort.trans (hcallable.trans hfunction)
          exact (hentered.trans hinside).trans (widens_leave hplain field? range next s₂)
        | true =>
          obtain ⟨scope, -, hopened⟩ := enter_function hfunction (noteComment kind range s)
          rw [henter] at hopened
          have hsome : next?.any Construct.isCallable = true :=
            hsort.trans (hcallable.trans hfunction)
          exact (widens_leave_function hsome field? range next (hopened.trans hinside)).1

theorem widens_walkAll : (trees : List SyntaxTree) → (surroundings : Surroundings) →
    (around : Open) → (s : State) → s.Widens ((walkAll surroundings around trees).run s).2
  | [], surroundings, around, s => by
    unfold walkAll
    exact small_widens.refl s
  | tree :: rest, surroundings, around, s => by
    have htree := widens_walk tree surroundings around s
    unfold walkAll
    exact htree.trans
      (widens_walkAll rest { surroundings with previousKind? := some tree.kind } _ _)

end

end Extract
end PhpIndex
