import PhpIndex.Proofs.Extract.Offers

/-!
# Assignments of what has no value

An operand without a value of its own leaves it to the values nested in it: those that no construct
in it takes up come out of it, and the last one is what the assignment binds or the function
returns. Only if none comes out nothing is bound and nothing is added to what is returned.
Main statements: `inert_operands`, `index_bound`.
-/
namespace PhpIndex

namespace TypeUnion

theorem merge_empty (u : TypeUnion) : u.merge .empty = u := rfl

theorem push_of_contains {u : TypeUnion} {t : TypeName} (h : u.contains t.name) : u.push t = u :=
  if_pos h

theorem contains_push (u : TypeUnion) (t : TypeName) : (u.push t).contains t.name := by
  rw [contains_iff, names_push]
  split
  next h => exact h
  next => exact List.mem_append_right _ List.mem_cons_self

theorem contains_push_of_contains {u : TypeUnion} {name : String} (h : u.contains name)
    (t : TypeName) : (u.push t).contains name := by
  rw [contains_iff] at h ⊢
  rw [names_push]
  split
  · exact h
  · exact List.mem_append_left _ h

theorem contains_foldl_push (ts : List TypeName) {u : TypeUnion} {name : String}
    (h : u.contains name ∨ ∃ t ∈ ts, t.name = name) : (ts.foldl push u).contains name := by
  induction ts generalizing u with
  | nil =>
    refine h.resolve_right ?_
    rintro ⟨t, ht, -⟩
    cases ht
  | cons t rest ih =>
    refine ih ?_
    rcases h with h | ⟨t', ht', rfl⟩
    · exact .inl (contains_push_of_contains h t)
    · rcases List.mem_cons.1 ht' with rfl | ht'
      · exact .inl (contains_push u t')
      · exact .inr ⟨t', ht', rfl⟩

/-- Nothing is added just if all alternatives are there. -/
theorem merge_eq_self_iff {u v : TypeUnion} :
    u.merge v = u ↔ ∀ t ∈ v.types, u.contains t.name := by
  constructor
  · intro h t ht
    rw [← h]
    exact contains_foldl_push v.types (.inr ⟨t, ht, rfl⟩)
  · intro h
    unfold merge
    generalize v.types = types at h
    induction types with
    | nil => rfl
    | cons t rest ih =>
      rw [List.foldl_cons, push_of_contains (h t List.mem_cons_self)]
      exact ih fun t' ht' => h t' (List.mem_cons_of_mem t ht')

end TypeUnion

namespace Extract

namespace State

theorem innermost_bind (s : State) (name : String) (types : TypeUnion) :
    (s.bind name types).innermost = s.innermost.bind name types := by
  unfold innermost bind
  cases s.scopes <;> rfl

theorem variableTypes_bind (s : State) (target name : String) (types : TypeUnion) :
    (s.bind target types).variableTypes name =
      if VariableScope.key name = VariableScope.key target then
        (s.variableTypes target).merge types
      else s.variableTypes name := by
  rw [variableTypes, innermost_bind, VariableScope.get?_bind]
  split <;> rfl

/-- A variable has no other types than before just if all that are bound were there. -/
theorem variableTypes_bind_iff {s : State} {target : String} {types : TypeUnion} :
    (∀ name, (s.bind target types).variableTypes name = s.variableTypes name) ↔
      ∀ t ∈ types.types, (s.variableTypes target).contains t.name := by
  rw [← TypeUnion.merge_eq_self_iff]
  constructor
  · intro h
    have htarget := s.variableTypes_bind target target types
    rw [if_pos rfl, h target] at htarget
    exact htarget.symm
  · intro h name
    rw [variableTypes_bind]
    split
    next hkey =>
      rw [h, variableTypes, variableTypes, VariableScope.get?, VariableScope.get?, hkey]
    next => rfl

end State

/-! ## What leaving a node does -/

/-- A value changes nothing but the constructs that it is offered to. -/
theorem Construct.run_accept_value (construct : Construct) (types : TypeUnion) (range : Range)
    (place : Place) (s : State) :
    ((construct.accept (.value types range) place).run s).2 = s := by
  cases construct with
  | loop l =>
    obtain ⟨part⟩ := l
    cases part with
    | _ => rfl
  | _ => rfl

theorem run_offer_value (types : TypeUnion) (range : Range) (place : Place) (around : Open)
    (s : State) : ((offer (.value types range) place around).run s).2 = s := by
  induction around generalizing place with
  | nil => rfl
  | cons construct? outer ih =>
    cases construct? with
    | none => exact ih .deeper
    | some construct =>
      unfold offer
      have haccept := construct.run_accept_value types range place s
      rcases hnext : (construct.accept (.value types range) place).run s with ⟨⟨next, taken⟩, s'⟩
      rw [hnext] at haccept
      simp only at haccept
      subst haccept
      rw [run_bind_eq hnext]
      simp only
      split
      · rfl
      · exact ih .deeper

/-- Leaving an assignment without a documented type binds the types of its value. -/
theorem run_leave_assignment (a : Assignment) {target : String} (htarget : a.target? = some target)
    (hdoc : a.documented target = .empty) (field? : Option String) (range : Range) (around : Open)
    (s : State) : ((leave (some (.assignment a)) field? range around).run s).2 =
      s.bind target (s.resolveTypes a.value) := by
  have hempty : s.resolveTypes (a.documented target) = .empty := by
    rw [hdoc]
    rfl
  have hfinish : ((Construct.assignment a).finish range).run s =
      ([.value (s.resolveTypes a.value) range], s.bind target (s.resolveTypes a.value)) := by
    unfold Construct.finish Assignment.finish
    simp only [StateT.run_bind, StateT.run_get, pure_bind, htarget, hempty, TypeUnion.merge_empty]
    rfl
  unfold leave
  simp only
  rw [run_bind_eq hfinish]
  exact run_offer_value _ range (.child field?) around _

/-- The types that the body of a function was seen to return so far. -/
def Construct.inferred? : Construct → Option TypeUnion
  | .callable c => some c.inferred
  | _ => none

/-- What the functions around were seen to return so far, innermost first. -/
def Open.inferred (around : Open) : List TypeUnion :=
  around.filterMap fun construct? => construct?.bind Construct.inferred?

/-- Functions take up what is returned. Nothing else does, but for an access to a member in which
it stands where the object should. -/
theorem Construct.run_accept_returned (construct : Construct) (types : TypeUnion) (place : Place)
    (s : State) :
    ((construct.accept (.returned types) place).run s).1.1.inferred? =
        construct.inferred?.map (·.merge types) ∧
      (((construct.accept (.returned types) place).run s).1.2 = construct.inferred?.isSome ∨
        place ≠ .deeper ∧ ∃ m, construct = .member m) := by
  cases construct with
  | member m =>
    have haccept : (m.accept (.returned types) place s).2 = m.isScope place := by
      unfold MemberAccess.accept MemberAccess.acceptOther
      simp only [Item.value?, Option.isSome_none, Bool.and_false, Bool.false_eq_true, if_false]
      cases m.isScope place <;> rfl
    refine ⟨rfl, ?_⟩
    cases place with
    | child field? => exact .inr ⟨Place.noConfusion, m, rfl⟩
    | deeper =>
      refine .inl (haccept.trans ?_)
      rw [MemberAccess.isScope, Place.isChild, Bool.and_false, Bool.false_and]
      rfl
  | argument a =>
    have haccept : (a.accept (.returned types) place).2 = false := by
      unfold ArgumentEntry.accept
      split <;> rfl
    exact ⟨rfl, .inl haccept⟩
  | assignment a =>
    have haccept : (a.accept (.returned types) place).2 = false := by
      unfold Assignment.accept
      split <;> rfl
    exact ⟨rfl, .inl haccept⟩
  | loop l =>
    obtain ⟨part⟩ := l
    cases part with
    | _ => exact ⟨rfl, .inl rfl⟩
  | _ => exact ⟨rfl, .inl rfl⟩

theorem Open.inferred_cons (construct? : Option Construct) (outer : Open) :
    Open.inferred (construct? :: outer) =
      (construct?.bind Construct.inferred?).toList ++ Open.inferred outer := by
  unfold Open.inferred
  rw [List.filterMap_cons]
  cases construct?.bind Construct.inferred? <;> rfl

/-- What is returned goes to the innermost function around. -/
theorem inferred_offer_returned (types : TypeUnion) (place : Place) (around : Open) (s : State) :
    ((offer (.returned types) place around).run s).1.inferred =
        around.inferred.modifyHead (·.merge types) ∨
      ((offer (.returned types) place around).run s).1.inferred = around.inferred ∧
        place ≠ .deeper ∧ ∃ m outer, around = some (.member m) :: outer := by
  induction around generalizing place s with
  | nil => exact .inl rfl
  | cons construct? outer ih =>
    have houter (s : State) : ((offer (.returned types) .deeper outer).run s).1.inferred =
        (Open.inferred outer).modifyHead (·.merge types) :=
      (ih .deeper s).resolve_right fun h => h.2.1 rfl
    cases construct? with
    | none => exact .inl (houter s)
    | some construct =>
      obtain ⟨hnext, htaken⟩ := construct.run_accept_returned types place s
      unfold offer
      rcases hrun : (construct.accept (.returned types) place).run s with ⟨⟨next, taken⟩, s'⟩
      rw [hrun] at hnext htaken
      rw [run_bind_eq hrun]
      simp only at hnext htaken ⊢
      cases hinferred : construct.inferred? with
      | some inferred =>
        rw [hinferred] at hnext htaken
        obtain rfl : taken = true := by
          refine htaken.resolve_right ?_
          rintro ⟨-, m, rfl⟩
          cases hinferred
        have htook : Open.inferred (some next :: outer) =
            (Open.inferred (some construct :: outer)).modifyHead (·.merge types) := by
          rw [Open.inferred_cons, Open.inferred_cons, Option.bind_some, Option.bind_some, hnext,
            hinferred]
          rfl
        exact .inl htook
      | none =>
        rw [hinferred] at hnext htaken
        have hcons (construct : Construct) (hnone : construct.inferred? = none) (outer : Open) :
            Open.inferred (some construct :: outer) = Open.inferred outer := by
          rw [Open.inferred_cons, Option.bind_some, hnone]
          rfl
        rw [hcons construct hinferred]
        cases taken with
        | true =>
          refine .inr ⟨hcons next hnext outer, ?_⟩
          obtain ⟨hplace, m, rfl⟩ := htaken.resolve_left Bool.noConfusion
          exact ⟨hplace, m, outer, rfl⟩
        | false => exact .inl ((hcons next hnext _).trans (houter s'))

/-! ## Reading the operands -/

/-- Opens the construct of a node and reads its children. -/
def readChildren (around : Open) (tree : SyntaxTree) : StateM State Open := do
  let construct? ← enter tree
  walkAll ⟨some tree.kind, none⟩ (construct? :: around) tree.children

/-- What comes out of the children of a node. -/
def childOffers (around : Open) (s : State) (tree : SyntaxTree) : List Offer :=
  let (construct?, s) := (enter tree).run s
  offersIn ⟨some tree.kind, none⟩ (construct? :: around) s tree.children

/-- The types of a value that comes from deeper down than the children of a node. -/
def Offer.nested? (o : Offer) : Option TypeUnion :=
  if o.place = .deeper then o.item.types? else none

/-- The types of the last of the values that come from deeper down, none if none comes. -/
def nestedTypes (offers : List Offer) : TypeUnion :=
  (offers.filterMap Offer.nested?).getLast?.getD .empty

/-- The variable that an offer makes an assignment bind, if it stands where that is read. -/
def Offer.target? (o : Offer) : Option (Option String) :=
  if o.place.isField "left" || o.place.isField "name" then some (Assignment.targetOf o.item)
  else none

/-- The variable that an assignment binds after these offers. -/
def assigned (offers : List Offer) : Option String :=
  (offers.filterMap Offer.target?).getLast?.getD none

/-- What has a role is neither a comment nor an atom. -/
theorem atom?_of_role {kind : String} {role : Role} (h : Role.ofKind? kind = some role)
    (field? : Option String) (range : Range) (around : Surroundings) (s : State) :
    kind ≠ "comment" ∧ atom? kind field? range around s = none := by
  have htable : ∀ p ∈ Role.table, p.1 ≠ "comment" ∧ p.1 ∉ nameKinds ∧ p.1 ≠ "variable_name" ∧
      ¬(p.1 = "primitive_type" ∨ p.1 = "bottom_type") ∧ p.1 ≠ "cast_type" ∧
      p.1 ≠ "relative_scope" ∧ p.1 ∉ modifierKinds ∧ p.1 ≠ "reference_modifier" ∧
      literalTypes.lookup p.1 = none := by decide
  obtain ⟨front, back, heq, -⟩ := List.lookup_eq_some_iff.1 h
  obtain ⟨hcomment, hname, hvariable, htype, hcast, hrelative, hmodifier, hreference, hliteral⟩ :=
    htable (kind, role) (heq ▸ List.mem_append_right front List.mem_cons_self)
  refine ⟨hcomment, ?_⟩
  unfold atom?
  simp only [if_neg hname, if_neg hvariable, if_neg htype, if_neg hcast, if_neg hrelative,
    if_neg hmodifier, if_neg hreference, hliteral, Option.map_none]

/-- A node with a role is left after its children were read, and its construct has heard what came
out of them. -/
theorem run_walk_of_role {tree : SyntaxTree} {role : Role} (h : Role.ofKind? tree.kind = some role)
    (hchildren : tree.children ≠ []) (around : Open) (s : State) :
    ∃ outer before, (readChildren around tree).run s =
        ((pass ((enter tree).run s).1 (childOffers around s tree)).1 :: outer, before) ∧
      ∀ surroundings, (walk surroundings around tree).run s =
        (leave (pass ((enter tree).run s).1 (childOffers around s tree)).1 tree.field? tree.range
          outer).run before := by
  obtain ⟨kind, field?, range, children⟩ := tree
  have hnoted : noteComment kind range s = s :=
    if_neg fun hcomment => (atom?_of_role h field? range ⟨none, none⟩ s).1 hcomment.1
  rcases henter : (enter (.node kind field? range children)).run s with ⟨construct?, s₁⟩
  have hhear := run_walkAll_eq_hear children ⟨some kind, none⟩ (construct? :: around) s₁
  rcases hwalk : (walkAll ⟨some kind, none⟩ (construct? :: around) children).run s₁ with
    ⟨next, before⟩
  rw [hwalk, hear_cons] at hhear
  simp only at hhear
  subst hhear
  have hoffers : childOffers around s (.node kind field? range children) =
      offersIn ⟨some kind, none⟩ (construct? :: around) s₁ children := by
    unfold childOffers
    rw [henter]
    rfl
  rw [hoffers]
  refine ⟨_, before, (run_bind_eq henter).trans hwalk, fun surroundings => ?_⟩
  exact run_walk_node (hnoted ▸ (atom?_of_role h field? range surroundings _).2)
    (List.isEmpty_eq_false_iff.2 hchildren) (hnoted.symm ▸ henter) hwalk

/-- An assignment is given the documentation comment in front of it. -/
theorem enter_assignment {tree : SyntaxTree} (h : Role.ofKind? tree.kind = some .assignment)
    (s : State) : ((enter tree).run s).1 = some (.assignment { doc? := s.doc? }) := by
  unfold enter
  rw [h]
  change ((takeDoc tree.kind (some (.assignment {}))).run s).1 = _
  unfold takeDoc
  simp only [StateT.run_bind, StateT.run_get, pure_bind, Option.bind_some, Construct.withDoc]
  cases s.doc? with
  | _ => rfl

theorem enter_returned {tree : SyntaxTree} (h : Role.ofKind? tree.kind = some .returned)
    (s : State) : ((enter tree).run s).1 = some (.returned {}) := by
  rcases enter_cases tree s with ⟨hrole, -⟩ | ⟨role, next, hrole, hnext, heq⟩
  · rw [h] at hrole
    cases hrole
  · rw [h] at hrole
    cases hrole
    rw [hnext]
    rcases heq with rfl | ⟨doc, hdoc⟩
    · rfl
    · cases hdoc

/-! ## What an operand without a value leaves -/

/-- What is no variable to assign to comes from deeper down or has no types. -/
theorem nested_of_mem_childOffers {tree : SyntaxTree} {around : Open} {s : State} {o : Offer}
    (ho : o ∈ childOffers around s tree) {fields : List String}
    (h : ∀ child ∈ tree.children, child.IsInert ∨ ∃ field ∈ fields, child.field? = some field) :
    (∃ field ∈ fields, o.place = .child (some field)) ∨ o.place = .deeper ∨
      o.item.types? = none := by
  obtain ⟨child, hchild, surroundings, around', s', hmem⟩ := exists_of_mem_offersIn ho
  rcases h child hchild with hinert | ⟨field, hfield, heq⟩
  · rcases exists_of_mem_offers hinert hmem with hnone | ⟨hplace, -⟩
    · exact .inr (.inr hnone)
    · exact .inr (.inl hplace)
  · rcases place_of_mem_offers hmem with hplace | hplace
    · exact .inl ⟨field, hfield, hplace.trans (congrArg Place.child heq)⟩
    · exact .inr (.inl hplace)

/-- A variable is offered as the child that it is. -/
theorem place_of_variable {tree : SyntaxTree} (h : tree.kind = "variable_name")
    {surroundings : Surroundings} {around : Open} {s : State} {o : Offer}
    (ho : o ∈ offers surroundings around s tree) : o.place = .child tree.field? := by
  obtain ⟨kind, field?, range, children⟩ := tree
  obtain rfl : kind = "variable_name" := h
  have hatom : ∃ item, atom? "variable_name" field? range surroundings
      (noteComment "variable_name" range s) = some item := by
    unfold atom?
    simp only [show "variable_name" ∉ nameKinds by decide, if_false, if_true]
    split <;> exact ⟨_, rfl⟩
  obtain ⟨item, hatom⟩ := hatom
  obtain ⟨s', hoffers, -⟩ := @offers_atom _ _ _ children _ around _ _ hatom
  rw [hoffers] at ho
  exact place_of_mem_handed ho

/-- Where no node inside the children has a value, no value comes from deeper down. -/
theorem nestedTypes_of_hollow {tree : SyntaxTree} (around : Open) (s : State)
    (h : ∀ child ∈ tree.children, child.Hollow ∨ child.kind = "variable_name") :
    nestedTypes (childOffers around s tree) = .empty := by
  have hnone : (childOffers around s tree).filterMap Offer.nested? = [] := by
    refine List.filterMap_eq_nil_iff.2 fun o ho => ?_
    obtain ⟨child, hchild, surroundings, around', s', hmem⟩ := exists_of_mem_offersIn ho
    unfold Offer.nested?
    rcases h child hchild with hhollow | hvariable
    · rw [types?_of_hollow hhollow hmem, ite_self]
    · rw [place_of_variable hvariable hmem]
      exact if_neg Place.noConfusion
  rw [nestedTypes, hnone]
  rfl

theorem getLast?_filterMap_cons {α β : Type} (f : α → Option β) (a : α) (rest : List α) (last : β) :
    ((a :: rest).filterMap f).getLast?.getD last =
      (rest.filterMap f).getLast?.getD ((f a).getD last) := by
  rw [List.filterMap_cons]
  cases f a with
  | none => rfl
  | some b =>
    rw [List.getLast?_cons]
    rfl

theorem pass_assignment (a : Assignment) {offers : List Offer}
    (h : ∀ o ∈ offers, (∃ field ∈ ["left", "name"], o.place = .child (some field)) ∨
      o.place = .deeper ∨ o.item.types? = none) :
    (pass (some (.assignment a)) offers).1 = some (.assignment
      { a with
        target? := (offers.filterMap Offer.target?).getLast?.getD a.target?
        value := (offers.filterMap Offer.nested?).getLast?.getD a.value }) := by
  have hfields : ∀ field ∈ ["left", "name"],
      ((Place.child (some field)).isField "left" || (Place.child (some field)).isField "name") =
        true := by decide
  induction offers generalizing a with
  | nil => rfl
  | cons o rest ih =>
    obtain ⟨ho, hrest⟩ := List.forall_mem_cons.1 h
    have haccept : (a.accept o.item o.place).1 =
        { a with target? := o.target?.getD a.target?, value := o.nested?.getD a.value } := by
      unfold Assignment.accept Offer.target? Offer.nested?
      rcases ho with ⟨field, hfield, hplace⟩ | hplace | hnone
      · have hleft : (o.place.isField "left" || o.place.isField "name") = true := by
          rw [hplace]
          exact hfields field hfield
        rw [if_pos hleft, if_pos hleft, if_neg (hplace ▸ Place.noConfusion)]
        rfl
      · have hleft : (o.place.isField "left" || o.place.isField "name") = false := by
          rw [hplace]
          rfl
        rw [hleft, if_pos hplace]
        rfl
      · rw [hnone, ite_self]
        split <;> rfl
    refine (ih (a.accept o.item o.place).1 hrest).trans ?_
    rw [getLast?_filterMap_cons, getLast?_filterMap_cons, haccept]

theorem pass_returned (v : LastValue) {offers : List Offer}
    (h : ∀ o ∈ offers, o.place = .deeper ∨ o.item.types? = none) :
    (pass (some (.returned v)) offers).1 =
      some (.returned ⟨(offers.filterMap Offer.nested?).getLast?.getD v.types⟩) := by
  induction offers generalizing v with
  | nil => rfl
  | cons o rest ih =>
    obtain ⟨ho, hrest⟩ := List.forall_mem_cons.1 h
    have haccept : (v.accept o.item).1 = ⟨o.nested?.getD v.types⟩ := by
      unfold LastValue.accept Offer.nested?
      split
      next => rfl
      next hplace => rw [ho.resolve_left hplace]
    refine (ih (v.accept o.item).1 hrest).trans ?_
    rw [getLast?_filterMap_cons, haccept]

section
variable {tree : SyntaxTree} {around : Open} {s : State}

theorem walk_assignment (hrole : Role.ofKind? tree.kind = some .assignment)
    (hchildren : tree.children ≠ [])
    (h : ∀ child ∈ tree.children, child.IsInert ∨
      ∃ field ∈ ["left", "name"], child.field? = some field) :
    ∃ outer before, (readChildren around tree).run s =
        (some (.assignment ⟨assigned (childOffers around s tree),
          nestedTypes (childOffers around s tree), s.doc?⟩) :: outer, before) ∧
      ∀ target ∈ assigned (childOffers around s tree),
        Assignment.documented { doc? := s.doc? } target = .empty →
        ∀ surroundings, ((walk surroundings around tree).run s).2 =
          before.bind target (before.resolveTypes (nestedTypes (childOffers around s tree))) := by
  obtain ⟨outer, before, hread, hwalk⟩ := run_walk_of_role hrole hchildren around s
  have hoffers : (pass ((enter tree).run s).1 (childOffers around s tree)).1 =
      some (.assignment ⟨assigned (childOffers around s tree),
        nestedTypes (childOffers around s tree), s.doc?⟩) := by
    rw [enter_assignment hrole s]
    exact pass_assignment _ fun o ho => nested_of_mem_childOffers ho h
  rw [hoffers] at hread hwalk
  refine ⟨outer, before, hread, fun target htarget hdoc surroundings => ?_⟩
  rw [hwalk surroundings]
  exact run_leave_assignment ⟨_, _, s.doc?⟩ htarget hdoc _ _ outer before

theorem walk_returned (hrole : Role.ofKind? tree.kind = some .returned)
    (hchildren : tree.children ≠ []) (h : ∀ child ∈ tree.children, child.IsInert) :
    ∃ outer before, (readChildren around tree).run s =
        (some (.returned ⟨nestedTypes (childOffers around s tree)⟩) :: outer, before) ∧
      ∀ surroundings, ((walk surroundings around tree).run s).1 =
        ((offer (.returned (nestedTypes (childOffers around s tree))) (.child tree.field?)
          outer).run before).1 := by
  obtain ⟨outer, before, hread, hwalk⟩ := run_walk_of_role hrole hchildren around s
  have hoffers : ∀ o ∈ childOffers around s tree, o.place = .deeper ∨ o.item.types? = none := by
    intro o ho
    refine (@nested_of_mem_childOffers _ _ _ _ ho [] fun child hchild =>
      .inl (h child hchild)).resolve_left ?_
    rintro ⟨field, hfield, -⟩
    cases hfield
  rw [enter_returned hrole s, pass_returned _ hoffers] at hread hwalk
  refine ⟨outer, before, hread, fun surroundings => ?_⟩
  rw [hwalk surroundings]
  rfl

end

/-- An operand without a value leaves it to what is nested in it. An assignment that has such
operands only next to its variable, and no documented type, binds the types of the last value that
comes from inside its children and nothing else, and a `return` adds them to what the function
around returns. These are none if there is no value in the operands at any depth. -/
theorem inert_operands (tree : SyntaxTree) (hchildren : tree.children ≠ [])
    (surroundings : Surroundings) (around : Open) (s : State) :
    let nested := nestedTypes (childOffers around s tree)
    let target? := assigned (childOffers around s tree)
    let after := ((walk surroundings around tree).run s).2
    let next := ((walk surroundings around tree).run s).1
    (Role.ofKind? tree.kind = some .assignment →
      (∀ child ∈ tree.children, child.IsInert ∨
        ∃ field ∈ ["left", "name"], child.field? = some field) →
      ∃ outer before, (readChildren around tree).run s =
          (some (.assignment ⟨target?, nested, s.doc?⟩) :: outer, before) ∧
        ∀ target ∈ target?, Assignment.documented { doc? := s.doc? } target = .empty →
          (∀ name, after.variableTypes name =
            if VariableScope.key name = VariableScope.key target then
              (before.variableTypes target).merge (before.resolveTypes nested)
            else before.variableTypes name) ∧
          ((∀ name, after.variableTypes name = before.variableTypes name) ↔
            ∀ t ∈ (before.resolveTypes nested).types,
              (before.variableTypes target).contains t.name)) ∧
    (Role.ofKind? tree.kind = some .returned →
      (∀ child ∈ tree.children, child.IsInert) →
      ∃ outer before, (readChildren around tree).run s =
          (some (.returned ⟨nested⟩) :: outer, before) ∧
        (Open.inferred next = (Open.inferred outer).modifyHead (·.merge nested) ∨
          Open.inferred next = Open.inferred outer ∧
            ∃ m outer', outer = some (.member m) :: outer')) ∧
    ((∀ child ∈ tree.children, child.Hollow ∨ child.kind = "variable_name") →
      nested = .empty) := by
  intro nested target? after next
  refine ⟨?assignment, ?returned, nestedTypes_of_hollow around s⟩
  case assignment =>
    intro hrole h
    obtain ⟨outer, before, hread, hbind⟩ := walk_assignment hrole hchildren h
    refine ⟨outer, before, hread, fun target htarget hdoc => ?_⟩
    have hafter : after = before.bind target (before.resolveTypes nested) :=
      hbind target htarget hdoc surroundings
    rw [hafter]
    exact ⟨fun name => before.variableTypes_bind target name _, State.variableTypes_bind_iff⟩
  case returned =>
    intro hrole h
    obtain ⟨outer, before, hread, hoffer⟩ := walk_returned hrole hchildren h
    refine ⟨outer, before, hread, ?_⟩
    have hnext : next = ((offer (.returned nested) (.child tree.field?) outer).run before).1 :=
      hoffer surroundings
    rw [hnext]
    exact (inferred_offer_returned nested _ outer before).imp_right fun h => ⟨h.1, h.2.2⟩

/-- `$b[0]`: a node without a value, in which the index is an integer. -/
def subscripted (field? : Option String) (start : UInt32) : SyntaxTree :=
  .node "subscript_expression" field? ⟨start, start + 5⟩
    [.node "variable_name" none ⟨start, start + 2⟩ [],
     .node "[" none ⟨start + 2, start + 3⟩ [],
     .node "integer" none ⟨start + 3, start + 4⟩ [],
     .node "]" none ⟨start + 4, start + 5⟩ []]

/-- `$a = `, in front of an operand. -/
def assigning (operand : SyntaxTree) : SyntaxTree :=
  .node "assignment_expression" none ⟨6, operand.range.stop⟩
    [.node "variable_name" (some "left") ⟨6, 8⟩ [], .node "=" none ⟨9, 10⟩ [], operand]

/-- `return `, in front of an operand. -/
def returning (operand : SyntaxTree) : SyntaxTree :=
  .node "return_statement" none ⟨6, operand.range.stop⟩ [.node "return" none ⟨6, 12⟩ [], operand]

/-- A `yield` without an operand binds nothing, and a function returns the type of the index in
what it subscripts. -/
theorem inert_operands_yield :
    let yielding : SyntaxTree := .node "yield_expression" (some "right") ⟨11, 16⟩
      [.node "yield" none ⟨11, 16⟩ []]
    let s := State.start "file:///a.php" "<?php $a = yield;"
    let s' := State.start "file:///a.php" "<?php return $b[0];"
    (∀ name, ((walk ⟨none, none⟩ [] (assigning yielding)).run s).2.variableTypes name =
        ((readChildren [] (assigning yielding)).run s).2.variableTypes name) ∧
      Open.inferred ((walk ⟨none, none⟩ [none, some (.callable { sort := .function })]
        (returning (subscripted none 13))).run s').1 = [builtin "int"] := by
  intro yielding s s'
  constructor
  · obtain ⟨hassignment, -, hhollow⟩ :=
      inert_operands (assigning yielding) (List.cons_ne_nil _ _) ⟨none, none⟩ [] s
    obtain ⟨outer, before, hread, hassign⟩ := hassignment (by decide) (by decide)
    have htarget : assigned (childOffers [] s (assigning yielding)) = some "$a" := by
      decide +kernel
    have hnested : nestedTypes (childOffers [] s (assigning yielding)) = .empty := by
      have hleaf {kind : String} {field? : Option String} {range : Range}
          (h : (SyntaxTree.node kind field? range []).IsInert) :
          (SyntaxTree.node kind field? range []).Hollow := .node h (List.forall_mem_nil _)
      refine hhollow (List.forall_mem_cons.2 ⟨.inr rfl, List.forall_mem_cons.2
        ⟨.inl (hleaf (by decide)), List.forall_mem_singleton.2 (.inl (.node (by decide) ?_))⟩⟩)
      exact List.forall_mem_singleton.2 (hleaf (by decide))
    rw [hread]
    refine (hassign "$a" htarget rfl).2.2 ?_
    rw [hnested]
    exact List.forall_mem_nil _
  · obtain ⟨outer, before, hread, hreturn⟩ :=
      (inert_operands (returning (subscripted none 13)) (List.cons_ne_nil _ _) ⟨none, none⟩
        [none, some (.callable { sort := .function })] s').2.1 (by decide) (by decide)
    have hopened : ((readChildren [none, some (.callable { sort := .function })]
        (returning (subscripted none 13))).run s').1 =
        [some (.returned ⟨builtin "int"⟩), none, some (.callable { sort := .function })] := by
      decide +kernel
    rw [hread] at hopened
    injection hopened with hvalue houter
    simp only [Option.some.injEq, Construct.returned.injEq, LastValue.mk.injEq] at hvalue
    rw [hvalue, houter] at hreturn
    refine (hreturn.resolve_right ?_).trans rfl
    rintro ⟨-, m, outer', hmember⟩
    cases hmember

/-- The index in `$b[0]` gives its type to the variable that the element is assigned to and to the
function that returns the element. -/
theorem index_bound :
    let s := State.start "file:///a.php" "<?php $a = $b[0];"
    let s' := State.start "file:///a.php" "<?php return $b[0];"
    let function : Open := [none, some (.callable { sort := .function })]
    (subscripted (some "right") 11).IsInert ∧
      ((readChildren [] (assigning (subscripted (some "right") 11))).run s).2.variableTypes "$a" =
        .empty ∧
      ((walk ⟨none, none⟩ [] (assigning (subscripted (some "right") 11))).run s).2.variableTypes
        "$a" = builtin "int" ∧
      Open.inferred function = [.empty] ∧
      Open.inferred ((walk ⟨none, none⟩ function (returning (subscripted none 13))).run s').1 =
        [builtin "int"] := by
  decide +kernel

end Extract
end PhpIndex
