import PhpIndex.Proofs.Extract.Mentions

/-!
# What comes out of a tree

The items that are offered to the constructs around a tree while it is read, in order, each with
the state at that moment. An item that comes out of a child passes by the construct of the node:
it ends there if the construct takes it up or it is a token, and otherwise is offered further out
as one from deeper down. The induction is on the tree.
Main statement: `run_walk_eq_hear`.
-/
namespace PhpIndex.Extract

structure Offer where
  item : Item
  place : Place
  state : State

/-- What an offer makes of the construct of a node, and what is left of it for those around. -/
def Offer.through (o : Offer) : Option Construct → Option Construct × Option Offer
  | none => (none, if o.item.isToken then none else some { o with place := .deeper })
  | some construct =>
    let ((next, taken), s) := (construct.accept o.item o.place).run o.state
    (some next, if taken || o.item.isToken then none else some ⟨o.item, .deeper, s⟩)

/-- Lets offers pass by the construct of a node, one after the other. -/
def pass (construct? : Option Construct) : List Offer → Option Construct × List Offer
  | [] => (construct?, [])
  | o :: rest =>
    let (next?, further?) := o.through construct?
    let (last?, further) := pass next? rest
    (last?, further?.toList ++ further)

/-- The constructs around after the offers. -/
def hear (around : Open) (offers : List Offer) : Open :=
  offers.foldl (fun around o => ((offer o.item o.place around).run o.state).1) around

/-- The offers of items that are handed around. -/
def handed (field? : Option String) : List Item → Open → State → List Offer
  | [], _, _ => []
  | item :: rest, around, s =>
    let (next, s') := (offer item (.child field?) around).run (s.record item)
    ⟨item, .child field?, s.record item⟩ :: handed field? rest next s'

/-- The offers of what the construct in front turns into when its node is left. -/
def leaving (field? : Option String) (range : Range) (s : State) : Open → List Offer
  | some construct :: outer =>
    let (items, s) := (construct.finish range).run s
    handed field? items outer s
  | _ => []

mutual

/-- What is offered to the constructs around while a tree is read. -/
def offers (surroundings : Surroundings) (around : Open) (s : State) : SyntaxTree → List Offer
  | .node kind field? range children =>
    let s := noteComment kind range s
    match atom? kind field? range surroundings s with
    | some item =>
      handed field? [item] around
        (if !children.isEmpty && !keepsDoc kind then { s with doc? := none } else s)
    | none =>
      if children.isEmpty then
        if kind = "comment" then [] else handed field? [.token (s.text range)] around s
      else
        let (construct?, s) := (enter (.node kind field? range children)).run s
        let (next, s') := (walkAll ⟨some kind, none⟩ (construct? :: around) children).run s
        (pass construct? (offersIn ⟨some kind, none⟩ (construct? :: around) s children)).2 ++
          leaving field? range s' next

def offersIn (surroundings : Surroundings) (around : Open) (s : State) :
    List SyntaxTree → List Offer
  | [] => []
  | tree :: rest =>
    let (next, s') := (walk surroundings around tree).run s
    offers surroundings around s tree ++
      offersIn { surroundings with previousKind? := some tree.kind } next s' rest

end

/-! ## Hearing offers -/

theorem hear_append (around : Open) (first second : List Offer) :
    hear around (first ++ second) = hear (hear around first) second := by
  rw [hear, List.foldl_append]
  rfl

/-- An offer goes to the innermost construct first. -/
theorem hear_cons_singleton (construct? : Option Construct) (around : Open) (o : Offer) :
    hear (construct? :: around) [o] =
      (o.through construct?).1 :: hear around (o.through construct?).2.toList := by
  cases construct? with
  | none =>
    unfold hear Offer.through
    simp only [List.foldl_cons, List.foldl_nil, offer]
    split <;> rfl
  | some construct =>
    unfold hear Offer.through
    simp only [List.foldl_cons, List.foldl_nil, offer]
    rcases haccept : (construct.accept o.item o.place).run o.state with ⟨⟨next, taken⟩, s⟩
    rw [run_bind_eq haccept]
    simp only
    split <;> rfl

/-- What a node hears, those around it hear after it. -/
theorem hear_cons (construct? : Option Construct) (around : Open) (offers : List Offer) :
    hear (construct? :: around) offers =
      (pass construct? offers).1 :: hear around (pass construct? offers).2 := by
  induction offers generalizing construct? around with
  | nil => rfl
  | cons o rest ih =>
    rw [show o :: rest = [o] ++ rest from rfl, hear_append, hear_cons_singleton, ih, ← hear_append]
    rfl

theorem run_hand_eq_hear (items : List Item) (field? : Option String) (around : Open) (s : State) :
    ((hand items field? around).run s).1 = hear around (handed field? items around s) := by
  unfold hand
  induction items generalizing around s with
  | nil => rfl
  | cons item rest ih => exact ih _ _

theorem run_leave_eq_hear (construct? : Option Construct) (field? : Option String) (range : Range)
    (around : Open) (s : State) : ((leave construct? field? range around).run s).1 =
      hear around (leaving field? range s (construct? :: around)) := by
  cases construct? with
  | none => rfl
  | some construct =>
    unfold leave leaving
    exact run_hand_eq_hear _ field? around _

/-! ## Reading -/

section
variable {kind : String} {field? : Option String} {range : Range} {children : List SyntaxTree}
  {surroundings : Surroundings} {around : Open} {s : State}

theorem offers_atom {item : Item}
    (hatom : atom? kind field? range surroundings (noteComment kind range s) = some item) :
    ∃ s', offers surroundings around s (.node kind field? range children) =
        handed field? [item] around s' ∧
      (walk surroundings around (.node kind field? range children)).run s =
        (hand [item] field? around).run s' := by
  unfold offers walk
  rw [run_noted]
  simp only [hatom]
  split <;> exact ⟨_, rfl, rfl⟩

theorem offers_leaf
    (hatom : atom? kind field? range surroundings (noteComment kind range s) = none) :
    offers surroundings around s (.node kind field? range []) =
      if kind = "comment" then []
      else handed field? [.token ((noteComment kind range s).text range)] around
        (noteComment kind range s) := by
  unfold offers
  simp only [hatom, List.isEmpty_nil, if_true]

theorem offers_node
    (hatom : atom? kind field? range surroundings (noteComment kind range s) = none)
    (hchildren : children.isEmpty = false) {construct? : Option Construct} {s₁ s₂ : State}
    (henter : (enter (.node kind field? range children)).run (noteComment kind range s) =
      (construct?, s₁)) {next : Open}
    (hwalk : (walkAll ⟨some kind, none⟩ (construct? :: around) children).run s₁ = (next, s₂)) :
    offers surroundings around s (.node kind field? range children) =
      (pass construct? (offersIn ⟨some kind, none⟩ (construct? :: around) s₁ children)).2 ++
        leaving field? range s₂ next := by
  unfold offers
  simp only [hatom, hchildren, Bool.false_eq_true, if_false, henter, hwalk]

end

mutual

/-- The constructs around a tree hear what comes out of it, and nothing else. -/
theorem run_walk_eq_hear : (tree : SyntaxTree) → (surroundings : Surroundings) →
    (around : Open) → (s : State) → ((walk surroundings around tree).run s).1 =
      hear around (offers surroundings around s tree)
  | .node kind field? range children, surroundings, around, s => by
    cases hatom : atom? kind field? range surroundings (noteComment kind range s) with
    | some item =>
      obtain ⟨s', hoffers, hwalk⟩ := @offers_atom _ _ _ children _ around _ _ hatom
      rw [hoffers, hwalk]
      exact run_hand_eq_hear [item] field? around s'
    | none =>
      cases hchildren : children.isEmpty with
      | true =>
        obtain rfl := List.isEmpty_iff.1 hchildren
        rw [run_walk_leaf hatom, offers_leaf hatom]
        split
        · rfl
        · exact run_hand_eq_hear _ field? around _
      | false =>
        rcases henter : (enter (.node kind field? range children)).run (noteComment kind range s)
          with ⟨construct?, s₁⟩
        have hnext := run_walkAll_eq_hear children ⟨some kind, none⟩ (construct? :: around) s₁
        rcases hwalk : (walkAll ⟨some kind, none⟩ (construct? :: around) children).run s₁ with
          ⟨next, s₂⟩
        rw [hwalk, hear_cons] at hnext
        simp only at hnext
        subst hnext
        rw [run_walk_node hatom hchildren henter hwalk,
          offers_node hatom hchildren henter hwalk, hear_append]
        exact run_leave_eq_hear _ field? range _ s₂

theorem run_walkAll_eq_hear : (trees : List SyntaxTree) → (surroundings : Surroundings) →
    (around : Open) → (s : State) → ((walkAll surroundings around trees).run s).1 =
      hear around (offersIn surroundings around s trees)
  | [], surroundings, around, s => by
    unfold walkAll offersIn
    rfl
  | tree :: rest, surroundings, around, s => by
    have htree := run_walk_eq_hear tree surroundings around s
    unfold walkAll offersIn
    rcases hwalk : (walk surroundings around tree).run s with ⟨next, s₁⟩
    rw [run_bind_eq hwalk]
    rw [hwalk] at htree
    simp only at htree ⊢
    rw [run_walkAll_eq_hear rest { surroundings with previousKind? := some tree.kind } next s₁,
      hear_append, htree]

end

theorem exists_of_mem_offersIn {surroundings : Surroundings} {around : Open} {s : State}
    {trees : List SyntaxTree} {o : Offer} (ho : o ∈ offersIn surroundings around s trees) :
    ∃ tree ∈ trees, ∃ surroundings around s, o ∈ offers surroundings around s tree := by
  induction trees generalizing surroundings around s with
  | nil =>
    unfold offersIn at ho
    cases ho
  | cons tree rest ih =>
    unfold offersIn at ho
    rcases List.mem_append.1 ho with ho | ho
    · exact ⟨tree, List.mem_cons_self, surroundings, around, s, ho⟩
    · obtain ⟨tree', htree', hmem⟩ := ih ho
      exact ⟨tree', List.mem_cons_of_mem _ htree', hmem⟩

/-! ## Places -/

theorem place_of_mem_handed {field? : Option String} {items : List Item} {around : Open} {s : State}
    {o : Offer} (ho : o ∈ handed field? items around s) : o.place = .child field? := by
  induction items generalizing around s with
  | nil => cases ho
  | cons item rest ih =>
    rcases List.mem_cons.1 ho with rfl | ho
    · rfl
    · exact ih ho

theorem Offer.place_of_through {o o' : Offer} {construct? : Option Construct}
    (h : (o.through construct?).2 = some o') : o'.place = .deeper := by
  cases construct? with
  | none =>
    obtain ⟨-, h⟩ := Option.ite_none_left_eq_some.1 h
    cases h
    rfl
  | some construct =>
    obtain ⟨-, h⟩ := Option.ite_none_left_eq_some.1 h
    cases h
    rfl

/-- What has passed by a construct comes from deeper down. -/
theorem place_of_mem_pass {construct? : Option Construct} {offers : List Offer} {o : Offer}
    (ho : o ∈ (pass construct? offers).2) : o.place = .deeper := by
  induction offers generalizing construct? with
  | nil => cases ho
  | cons first rest ih =>
    rcases List.mem_append.1 ho with ho | ho
    · exact Offer.place_of_through (Option.mem_toList.1 ho)
    · exact ih ho

theorem place_of_mem_leaving {field? : Option String} {range : Range} {s : State} {next : Open}
    {o : Offer} (ho : o ∈ leaving field? range s next) : o.place = .child field? := by
  unfold leaving at ho
  split at ho
  · exact place_of_mem_handed ho
  · cases ho

/-- What comes out of a tree is offered as the tree itself or as something deeper. -/
theorem place_of_mem_offers {surroundings : Surroundings} {around : Open} {s : State}
    {tree : SyntaxTree} {o : Offer} (ho : o ∈ offers surroundings around s tree) :
    o.place = .child tree.field? ∨ o.place = .deeper := by
  obtain ⟨kind, field?, range, children⟩ := tree
  cases hatom : atom? kind field? range surroundings (noteComment kind range s) with
  | some item =>
    obtain ⟨s', hoffers, -⟩ := @offers_atom _ _ _ children _ around _ _ hatom
    rw [hoffers] at ho
    exact .inl (place_of_mem_handed ho)
  | none =>
    cases hchildren : children.isEmpty with
    | true =>
      obtain rfl := List.isEmpty_iff.1 hchildren
      rw [offers_leaf hatom] at ho
      split at ho
      · cases ho
      · exact .inl (place_of_mem_handed ho)
    | false =>
      rw [offers_node hatom hchildren rfl rfl] at ho
      rcases List.mem_append.1 ho with ho | ho
      · exact .inr (place_of_mem_pass ho)
      · exact .inl (place_of_mem_leaving ho)

/-! ## Nodes without a value -/

/-- The kinds of nodes whose text alone is the value of an expression. -/
def valueKinds : List String := "variable_name" :: nameKinds ++ literalTypes.map Prod.fst

theorem types?_of_atom {kind : String} (h : kind ∉ valueKinds) {field? : Option String}
    {range : Range} {around : Surroundings} {s : State} {item : Item}
    (hatom : atom? kind field? range around s = some item) : item.types? = none := by
  rw [valueKinds, List.cons_append, List.mem_cons, List.mem_append, not_or, not_or] at h
  obtain ⟨hvariable, hname, hliteral⟩ := h
  unfold atom? at hatom
  simp only [if_neg hname, if_neg hvariable] at hatom
  split at hatom
  · cases hatom
    rfl
  · split at hatom
    · cases hatom
      rfl
    · split at hatom
      · cases hatom
        rfl
      · split at hatom
        · obtain ⟨word, -, rfl⟩ := Option.map_eq_some_iff.1 hatom
          rfl
        · split at hatom
          · cases hatom
            rfl
          · obtain ⟨type, htype, -⟩ := Option.map_eq_some_iff.1 hatom
            obtain ⟨front, back, heq, -⟩ := List.lookup_eq_some_iff.1 htype
            refine absurd ?_ hliteral
            rw [heq, List.map_append, List.map_cons]
            exact List.mem_append_right _ List.mem_cons_self

end PhpIndex.Extract

namespace PhpIndex.SyntaxTree

/-- Whether a node has no value of its own: it opens no construct, and is neither a name nor a
variable nor a literal. -/
def IsInert (tree : SyntaxTree) : Prop :=
  Extract.Role.ofKind? tree.kind = none ∧ tree.kind ∉ Extract.valueKinds

instance : DecidablePred IsInert := fun _ => inferInstanceAs (Decidable (_ ∧ _))

/-- Whether no node in the tree has a value of its own. -/
inductive Hollow : SyntaxTree → Prop where
  | node {tree : SyntaxTree} (h : tree.IsInert)
      (hchildren : ∀ child ∈ tree.children, Hollow child) : Hollow tree

end PhpIndex.SyntaxTree

namespace PhpIndex.Extract

theorem enter_of_inert {tree : SyntaxTree} (h : tree.IsInert) (s : State) :
    ((enter tree).run s).1 = none := by
  rcases enter_cases tree s with ⟨-, hnone⟩ | ⟨role, _, hrole, -⟩
  · exact hnone
  · rw [h.1] at hrole
    cases hrole

theorem pass_none (offers : List Offer) : (pass none offers).1 = none := by
  induction offers with
  | nil => rfl
  | cons o rest ih => exact ih

theorem exists_of_mem_pass_none {offers : List Offer} {o : Offer} (ho : o ∈ (pass none offers).2) :
    ∃ o' ∈ offers, o'.item = o.item := by
  induction offers with
  | nil => cases ho
  | cons first rest ih =>
    rcases List.mem_append.1 ho with ho | ho
    · obtain ⟨-, heq⟩ := Option.ite_none_left_eq_some.1 (Option.mem_toList.1 ho)
      cases heq
      exact ⟨first, List.mem_cons_self, rfl⟩
    · obtain ⟨o', ho', heq⟩ := ih ho
      exact ⟨o', List.mem_cons_of_mem _ ho', heq⟩

section
variable {surroundings : Surroundings} {around : Open} {s : State}

/-- What comes out of a node without a value is a part without types, or comes out of a child. -/
theorem exists_of_mem_offers {tree : SyntaxTree} (h : tree.IsInert) {o : Offer}
    (ho : o ∈ offers surroundings around s tree) : o.item.types? = none ∨ o.place = .deeper ∧
      ∃ child ∈ tree.children, ∃ surroundings around s,
        ∃ o' ∈ offers surroundings around s child, o'.item = o.item := by
  obtain ⟨kind, field?, range, children⟩ := tree
  cases hatom : atom? kind field? range surroundings (noteComment kind range s) with
  | some item =>
    obtain ⟨s', hoffers, -⟩ := @offers_atom _ _ _ children _ around _ _ hatom
    rw [hoffers] at ho
    obtain rfl := List.mem_singleton.1 ho
    exact .inl (types?_of_atom h.2 hatom)
  | none =>
    cases hchildren : children.isEmpty with
    | true =>
      obtain rfl := List.isEmpty_iff.1 hchildren
      rw [offers_leaf hatom] at ho
      split at ho
      · cases ho
      · obtain rfl := List.mem_singleton.1 ho
        exact .inl rfl
    | false =>
      rcases henter : (enter (.node kind field? range children)).run (noteComment kind range s)
        with ⟨construct?, s₁⟩
      obtain rfl : construct? = none := by
        rw [← enter_of_inert h (noteComment kind range s), henter]
      have hnext := run_walkAll_eq_hear children ⟨some kind, none⟩ (none :: around) s₁
      rcases hwalk : (walkAll ⟨some kind, none⟩ (none :: around) children).run s₁ with ⟨next, s₂⟩
      rw [hwalk, hear_cons, pass_none] at hnext
      simp only at hnext
      subst hnext
      rw [offers_node hatom hchildren henter hwalk] at ho
      rcases List.mem_append.1 ho with ho | ho
      · obtain ⟨o', ho', heq⟩ := exists_of_mem_pass_none ho
        obtain ⟨child, hchild, surroundings', around', s', hmem⟩ := exists_of_mem_offersIn ho'
        exact .inr ⟨place_of_mem_pass ho, child, hchild, surroundings', around', s', o', hmem, heq⟩
      · cases ho

/-- Nothing with types comes out of a tree in which no node has a value. -/
theorem types?_of_hollow {tree : SyntaxTree} (h : tree.Hollow) {o : Offer}
    (ho : o ∈ offers surroundings around s tree) : o.item.types? = none := by
  induction h generalizing surroundings around s o with
  | node h hchildren ih =>
    rcases exists_of_mem_offers h ho with hnone | ⟨-, child, hchild, _, _, _, o', ho', heq⟩
    · exact hnone
    · rw [← heq]
      exact ih child hchild ho'

end

end PhpIndex.Extract
