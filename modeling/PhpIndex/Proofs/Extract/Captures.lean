import PhpIndex.Proofs.Extract.Enclosing
import PhpIndex.Proofs.Extract.Tracking

/-!
# What a closure captures

The variables right in the clause of a closure are kept until the clause is left. Then each is
bound in the scope of the closure to all the types that it has in the scope around, which is still
the one in which the closure was entered. What is wrapped in the clause, as a variable captured by
reference is, comes from deeper down and is kept by nobody.
Main statement: `closure_knows_captured`.
-/
namespace PhpIndex

namespace SyntaxTree

/-- The kinds of nodes that are closures with a clause for captured variables. -/
def closureKinds : List String := ["anonymous_function", "anonymous_function_creation_expression"]

def captureKind : String := "anonymous_function_use_clause"

/-- The name under which a variable is known. -/
def variableName (source : String) (node : SyntaxTree) : String :=
  (TypeName.ofSource (node.range.text source)).name

end SyntaxTree

namespace Extract

/-! ## The variables that are kept -/

/-- The variable that the clause of a closure takes from an offer. -/
def Offer.captured? (o : Offer) : Option String :=
  if o.place.isChild then o.item.variableName? else none

theorem Captures.accept_eq (c : Captures) (item : Item) (place : Place) (s : State) :
    (c.accept item place).1 =
      ⟨c.names ++ (Offer.captured? ⟨item, place, s⟩).toList⟩ := by
  unfold accept Offer.captured?
  simp only
  cases item.variableName? with
  | none => simp
  | some name =>
    simp only
    split
    · rfl
    · simp

/-- The clause keeps what it takes, in order. -/
theorem pass_captures (c : Captures) (offers : List Offer) :
    (pass (some (.captures c)) offers).1 =
      some (.captures ⟨c.names ++ offers.filterMap Offer.captured?⟩) := by
  induction offers generalizing c with
  | nil => rw [List.filterMap_nil, List.append_nil]; rfl
  | cons o rest ih =>
    have hthrough : (o.through (some (.captures c))).1 =
        some (.captures (c.accept o.item o.place).1) := rfl
    rw [c.accept_eq o.item o.place o.state] at hthrough
    change (pass (o.through (some (.captures c))).1 rest).1 = _
    rw [hthrough, ih]
    cases hcaptured : o.captured? with
    | none => simp [hcaptured]
    | some name => simp [hcaptured]

theorem captured_variable {surroundings : Surroundings}
    (hparent : surroundings.parentKind? = some SyntaxTree.captureKind) {v : SyntaxTree}
    (hv : v.kind = "variable_name") (around : Open) (s : State) :
    v.variableName s.source ∈ (offers surroundings around s v).filterMap Offer.captured? := by
  obtain ⟨kind, field?, range, children⟩ := v
  obtain rfl : kind = "variable_name" := hv
  have hatom : atom? "variable_name" field? range surroundings s =
      some (s.variableReference (s.text range) range) := by
    have hdeclares : surroundings.declares field? = false := by
      unfold Surroundings.declares
      rw [hparent]
      rfl
    have hname : "variable_name" ∉ nameKinds := by decide
    simp only [atom?, if_neg hname, if_true, hdeclares, Bool.false_eq_true, if_false]
  obtain ⟨s', hoffers, -⟩ := @offers_atom _ field? _ children surroundings around s _ hatom
  rw [hoffers]
  exact List.mem_cons_self

/-- Each variable right in the clause is among those that are taken. -/
theorem captured_children {surroundings : Surroundings}
    (hparent : surroundings.parentKind? = some SyntaxTree.captureKind) {trees : List SyntaxTree}
    {v : SyntaxTree} (hmem : v ∈ trees) (hv : v.kind = "variable_name") (around : Open)
    (s : State) : v.variableName s.source ∈
      (offersIn surroundings around s trees).filterMap Offer.captured? := by
  induction trees generalizing surroundings around s with
  | nil => cases hmem
  | cons tree rest ih =>
    have hsource := (widens_walk tree surroundings around s).source
    unfold offersIn
    rcases hwalk : (walk surroundings around tree).run s with ⟨next, s'⟩
    rw [hwalk] at hsource
    simp only
    rw [List.filterMap_append]
    rcases List.mem_cons.1 hmem with rfl | hmem
    · exact List.mem_append_left _ (captured_variable hparent hv around s)
    · refine List.mem_append_right _ ?_
      rw [← hsource]
      exact @ih ⟨surroundings.parentKind?, some tree.kind⟩ hparent hmem next s'

/-! ## Leaving the clause -/

/-- The variables that are kept are bound one after the other, each to its types around. -/
theorem knows_captured {names : List String} {name : String} (hname : name ∈ names) {s : State}
    {inner : VariableScope} {outer : List VariableScope} (hs : s.scopes = inner :: outer) :
    ∃ wider, (names.foldl Captures.capture s).scopes = wider :: outer ∧
      wider.Knows name (((outer.head?.getD s.globals).get? name).getD .empty) := by
  have hcapture (s : State) (name : String) : s.Widens (Captures.capture s name) := by
    unfold Captures.capture
    split
    · exact small_widens.refl s
    · exact small_widens.bind s _ _
  have hall (names : List String) (s : State) : s.Widens (names.foldl Captures.capture s) := by
    induction names generalizing s with
    | nil => exact small_widens.refl s
    | cons first rest ih => exact (hcapture s first).trans (ih _)
  induction names generalizing s inner with
  | nil => cases hname
  | cons first rest ih =>
    rw [List.foldl_cons]
    rcases List.mem_cons.1 hname with rfl | hname
    · have hbound : (Captures.capture s name).scopes =
          inner.bind name (((outer.head?.getD s.globals).get? name).getD .empty) :: outer := by
        unfold Captures.capture State.bind
        simp only [hs]
      obtain ⟨-, wider, hwider, hbelow⟩ := (hall rest (Captures.capture s name)).scopes hbound
      exact ⟨wider, hwider, hbelow.knows (inner.knows_bind name _)⟩
    · obtain ⟨hglobals, next, hnext, -⟩ := (hcapture s first).scopes hs
      rw [← hglobals]
      exact ih hname hnext

theorem enter_captures {clause : SyntaxTree} (h : clause.kind = SyntaxTree.captureKind)
    (s : State) : ((enter clause).run s).1 = some (.captures {}) := by
  have hrole : Role.ofKind? clause.kind = some .captures := by rw [h]; rfl
  rcases enter_cases clause s with ⟨hnone, -⟩ | ⟨role, next, hrole', hnext, heq⟩
  · rw [hrole] at hnone
    cases hnone
  · rw [hrole] at hrole'
    cases hrole'
    rcases heq with rfl | ⟨doc, hdoc⟩
    · exact hnext
    · cases hdoc

/-- A clause that is read makes the innermost scope know each of its variables as the scope around
does. -/
theorem knows_clause {clause : SyntaxTree} (hclause : clause.kind = SyntaxTree.captureKind)
    {v : SyntaxTree} (hmem : v ∈ clause.children) (hv : v.kind = "variable_name")
    (surroundings : Surroundings) (around : Open) {s : State} {inner : VariableScope}
    {outer : List VariableScope} (hs : s.scopes = inner :: outer) :
    ∃ wider, ((walk surroundings around clause).run s).2.scopes = wider :: outer ∧
      wider.Knows (v.variableName s.source)
        (((outer.head?.getD s.globals).get? (v.variableName s.source)).getD .empty) := by
  obtain ⟨kind, field?, range, children⟩ := clause
  obtain rfl : kind = SyntaxTree.captureKind := hclause
  have hatom : atom? SyntaxTree.captureKind field? range surroundings
      (noteComment SyntaxTree.captureKind range s) = none := rfl
  have hchildren : children.isEmpty = false := by
    cases children with
    | nil => cases hmem
    | cons _ _ => rfl
  have hopen := @enter_captures (.node SyntaxTree.captureKind field? range children) rfl s
  have hentered := @widens_enter (.node SyntaxTree.captureKind field? range children) rfl s
  rcases henter : (enter (.node SyntaxTree.captureKind field? range children)).run s with
    ⟨construct?, s₁⟩
  rw [henter] at hopen hentered
  obtain rfl : construct? = some (.captures {}) := hopen
  have hwalked := hentered.trans
    (widens_walkAll children ⟨some SyntaxTree.captureKind, none⟩ (some (.captures {}) :: around) s₁)
  have hkept := run_walkAll_eq_hear children ⟨some SyntaxTree.captureKind, none⟩
    (some (.captures {}) :: around) s₁
  rw [hear_cons, pass_captures] at hkept
  have hname := @captured_children ⟨some SyntaxTree.captureKind, none⟩ rfl _ _ hmem hv
    (some (.captures {}) :: around) s₁
  rw [hentered.source] at hname
  rcases hwalk : (walkAll ⟨some SyntaxTree.captureKind, none⟩ (some (.captures {}) :: around)
    children).run s₁ with ⟨next, s₂⟩
  rw [hwalk] at hwalked hkept
  simp only at hwalked hkept
  subst hkept
  rw [run_walk_node hatom hchildren henter hwalk]
  obtain ⟨hglobals, inside, hinside, -⟩ := hwalked.scopes hs
  obtain ⟨bound, hbound, hknows⟩ := knows_captured hname hinside
  rw [hglobals] at hknows
  -- The clause hands on that something was captured, which those around may take up.
  obtain ⟨-, wider, hwider, hbelow⟩ := (widens_hand [.captured] field? _ _).scopes hbound
  exact ⟨wider, hwider, hbelow.knows hknows⟩

/-! ## Closures -/

theorem run_walkAll_append (first second : List SyntaxTree) (surroundings : Surroundings)
    (around : Open) (s : State) : ∃ surroundings',
      (walkAll surroundings around (first ++ second)).run s =
        (walkAll surroundings' ((walkAll surroundings around first).run s).1 second).run
          ((walkAll surroundings around first).run s).2 := by
  induction first generalizing surroundings around s with
  | nil =>
    refine ⟨surroundings, ?_⟩
    unfold walkAll
    rfl
  | cons tree rest ih =>
    rcases hwalk : (walk surroundings around tree).run s with ⟨next, s'⟩
    have hsplit (trees : List SyntaxTree) : (walkAll surroundings around (tree :: trees)).run s =
        (walkAll { surroundings with previousKind? := some tree.kind } next trees).run s' := by
      rw [walkAll, run_bind_eq hwalk]
    rw [List.cons_append, hsplit, hsplit]
    exact ih _ next s'

theorem run_walkAll_singleton (tree : SyntaxTree) (surroundings : Surroundings) (around : Open)
    (s : State) : (walkAll surroundings around [tree]).run s =
      (walk surroundings around tree).run s := by
  unfold walkAll
  rw [StateT.run_bind]
  unfold walkAll
  rfl

/-- The constructs that are open and the state, when these first children of a node were read. -/
def inside (tree : SyntaxTree) (around : Open) (s : State) (front : List SyntaxTree) :
    Open × State :=
  let (construct?, s) := (enter tree).run (noteComment tree.kind tree.range s)
  (walkAll ⟨some tree.kind, none⟩ (construct? :: around) front).run s

theorem run_inside_concat (tree child : SyntaxTree) (around : Open) (s : State)
    (front : List SyntaxTree) : ∃ surroundings around',
      (inside tree around s (front ++ [child])).2 =
        ((walk surroundings around' child).run (inside tree around s front).2).2 := by
  unfold inside
  rcases (enter tree).run (noteComment tree.kind tree.range s) with ⟨construct?, s₁⟩
  obtain ⟨surroundings', happend⟩ :=
    run_walkAll_append front [child] ⟨some tree.kind, none⟩ (construct? :: around) s₁
  simp only
  rw [happend, run_walkAll_singleton]
  exact ⟨surroundings', _, rfl⟩

/-- What is read in a function leaves its scope in front of those that were open. -/
theorem inside_function {tree : SyntaxTree} (h : tree.isFunction = true) (around : Open) (s : State)
    (front : List SyntaxTree) : ∃ scope, scope.location = .of s.uri tree.range ∧
      (s.openScope scope).Widens (inside tree around s front).2 := by
  have hnoted : noteComment tree.kind tree.range s = s := by
    have hcomment : tree.kind ≠ "comment" := by
      have hkinds : ∀ kind ∈ SyntaxTree.functionKinds, kind ≠ "comment" := by decide
      exact hkinds _ (of_decide_eq_true h)
    exact if_neg fun hnot => hcomment hnot.1
  obtain ⟨scope, hlocation, hopened⟩ := enter_function h s
  refine ⟨scope, hlocation, hopened.trans ?_⟩
  unfold inside
  rw [hnoted]
  exact widens_walkAll front _ _ _

/-- Behind its children a function is left. -/
theorem run_walk_function {tree : SyntaxTree} (h : tree.isFunction = true)
    (hchildren : tree.children ≠ []) (surroundings : Surroundings) (around : Open) (s : State) :
    ∃ next? next, (inside tree around s tree.children).1 = next? :: next ∧
      next?.any Construct.isCallable = true ∧
      (walk surroundings around tree).run s =
        (leave next? tree.field? tree.range next).run (inside tree around s tree.children).2 := by
  obtain ⟨kind, field?, range, children⟩ := tree
  have hatom : atom? kind field? range surroundings (noteComment kind range s) = none :=
    atom?_of_isFunction (of_decide_eq_true h) field? range surroundings _
  have hsome : children.isEmpty = false := List.isEmpty_eq_false_iff.2 hchildren
  have hcallable := enter_fst (.node kind field? range children) (noteComment kind range s)
  rcases henter : (enter (.node kind field? range children)).run (noteComment kind range s)
    with ⟨construct?, s₁⟩
  obtain ⟨next?, next, hnext, hsort⟩ :=
    Open.exists_walkAll children ⟨some kind, none⟩ construct? around s₁
  rcases hwalk : (walkAll ⟨some kind, none⟩ (construct? :: around) children).run s₁
    with ⟨next', s₂⟩
  have hinside : inside (.node kind field? range children) around s children = (next', s₂) := by
    unfold inside
    simp only [SyntaxTree.kind, SyntaxTree.range, henter, hwalk]
  rw [henter] at hcallable
  rw [hwalk] at hnext
  obtain rfl : next' = next? :: next := hnext
  refine ⟨next?, next, congrArg Prod.fst hinside, hsort.trans (hcallable.trans h), ?_⟩
  rw [run_walk_node hatom hsome henter hwalk]
  exact congrArg (fun state => (leave next? field? range next).run state)
    (congrArg Prod.snd hinside).symm

/-- A function that was read has its scope finished, with all that it knew in between. -/
theorem finished_function {tree : SyntaxTree} (h : tree.isFunction = true)
    {front back : List SyntaxTree} (hchildren : tree.children = front ++ back)
    (hne : tree.children ≠ []) (surroundings : Surroundings) (around : Open) {s : State}
    {scope : VariableScope} (hs : (inside tree around s front).2.scopes = scope :: s.scopes) :
    ∃ last ∈ ((walk surroundings around tree).run s).2.finished, scope.Below last := by
  have hrest : (inside tree around s front).2.Widens (inside tree around s tree.children).2 := by
    rw [hchildren]
    unfold inside
    rcases (enter tree).run (noteComment tree.kind tree.range s) with ⟨construct?, s₁⟩
    obtain ⟨surroundings', happend⟩ :=
      run_walkAll_append front back ⟨some tree.kind, none⟩ (construct? :: around) s₁
    simp only
    rw [happend]
    exact widens_walkAll back _ _ _
  obtain ⟨next?, next, -, hcallable, hrun⟩ := run_walk_function h hne surroundings around s
  -- The state in between is the one that opens its innermost scope in front of the others.
  have hopened : State.openScope { (inside tree around s front).2 with scopes := s.scopes } scope =
      (inside tree around s front).2 := by
    unfold State.openScope
    rw [← hs]
  rw [← hopened] at hrest
  rw [hrun]
  exact (widens_leave_function hcallable tree.field? tree.range next hrest).2

/-- When the clause of a closure is left, the closure knows each variable right in it as the scope
around does, which is the same as ever; and so it does when it is finished. -/
theorem closure_knows_captured {closure clause v : SyntaxTree} {front back : List SyntaxTree}
    (hclosure : closure.kind ∈ SyntaxTree.closureKinds)
    (hchildren : closure.children = front ++ clause :: back)
    (hclause : clause.kind = SyntaxTree.captureKind) (hmem : v ∈ clause.children)
    (hv : v.kind = "variable_name") (surroundings : Surroundings) (around : Open) (s : State) :
    let left := (inside closure around s (front ++ [clause])).2
    let name := v.variableName s.source
    ∃ scope, left.scopes = scope :: s.scopes ∧ left.globals = s.globals ∧
      scope.location = .of s.uri closure.range ∧ scope.Knows name (s.variableTypes name) ∧
      ∃ last ∈ ((walk surroundings around closure).run s).2.finished,
        last.location = .of s.uri closure.range ∧ last.Knows name (s.variableTypes name) := by
  intro left name
  have hfunction : closure.isFunction = true := by
    have hkinds : ∀ kind ∈ SyntaxTree.closureKinds, kind ∈ SyntaxTree.functionKinds := by decide
    exact decide_eq_true (hkinds _ hclosure)
  obtain ⟨opened, hlocation, hleft⟩ := inside_function hfunction around s (front ++ [clause])
  obtain ⟨hglobals, scope, hscope, hbelow⟩ := hleft.scopes rfl
  have hknows : scope.Knows name (s.variableTypes name) := by
    obtain ⟨surroundings', around', hclauseRun⟩ := run_inside_concat closure clause around s front
    obtain ⟨before, -, hreached⟩ := inside_function hfunction around s front
    obtain ⟨hglobals', mid, hmid, -⟩ := hreached.scopes rfl
    obtain ⟨wider, hwider, hknows⟩ := knows_clause hclause hmem hv surroundings' around' hmid
    rw [hreached.source, hglobals'] at hknows
    rw [← hclauseRun, hscope] at hwider
    cases hwider
    exact hknows
  have hsplit : closure.children = (front ++ [clause]) ++ back := by simp [hchildren]
  obtain ⟨last, hlast, hlater⟩ := finished_function hfunction hsplit (by simp [hchildren])
    surroundings around hscope
  exact ⟨scope, hscope, hglobals, hbelow.location.trans hlocation, hknows, last, hlast,
    hlater.location.trans (hbelow.location.trans hlocation), hlater.knows hknows⟩

theorem closure_knows_int :
    let source := "<?php $g = 1; $j = function() use ($g) \x7b return $g; \x7d;"
    let v : SyntaxTree := .node "variable_name" none ⟨35, 37⟩
      [.node "$" none ⟨35, 36⟩ [], .node "name" none ⟨36, 37⟩ []]
    let clause : SyntaxTree := .node "anonymous_function_use_clause" none ⟨30, 38⟩
      [.node "use" none ⟨30, 33⟩ [], .node "(" none ⟨34, 35⟩ [], v, .node ")" none ⟨37, 38⟩ []]
    let front : List SyntaxTree :=
      [.node "function" none ⟨19, 27⟩ [],
       .node "formal_parameters" (some "parameters") ⟨27, 29⟩
        [.node "(" none ⟨27, 28⟩ [], .node ")" none ⟨28, 29⟩ []]]
    let back : List SyntaxTree :=
      [.node "compound_statement" (some "body") ⟨39, 53⟩
        [.node "\x7b" none ⟨39, 40⟩ [],
         .node "return_statement" none ⟨41, 51⟩
          [.node "return" none ⟨41, 47⟩ [],
           .node "variable_name" none ⟨48, 50⟩
            [.node "$" none ⟨48, 49⟩ [], .node "name" none ⟨49, 50⟩ []],
           .node ";" none ⟨50, 51⟩ []],
         .node "\x7d" none ⟨52, 53⟩ []]]
    let closure : SyntaxTree :=
      .node "anonymous_function" (some "right") ⟨19, 53⟩ (front ++ clause :: back)
    let int := TypeUnion.single (.ofSource "int")
    let s := (State.start "a.php" source).bind "$g" int
    ∃ scope, (inside closure [] s (front ++ [clause])).2.scopes = [scope] ∧ scope.Knows "$g" int ∧
      ∃ last ∈ ((walk ⟨some "assignment_expression", some "="⟩ [] closure).run s).2.finished,
        last.Knows "$g" int := by
  intro source v clause front back closure int s
  have hname : v.variableName s.source = "$g" := by decide +kernel
  have htypes : s.variableTypes "$g" = int := by decide +kernel
  have hmem : v ∈ clause.children := by simp [clause, SyntaxTree.children]
  obtain ⟨scope, hscope, -, -, hknows, last, hlast, -, hlater⟩ :=
    @closure_knows_captured closure clause v front back (by decide) rfl rfl hmem rfl
      ⟨some "assignment_expression", some "="⟩ [] s
  rw [hname, htypes] at hknows hlater
  exact ⟨scope, hscope, hknows, last, hlast, hlater⟩

/-- A variable captured by reference is known around the closure and unknown in it. -/
theorem closure_misses_reference :
    let source := "<?php $g = 1; $j = function() use (&$g) \x7b return $g; \x7d;"
    let tree : SyntaxTree := .node "program" none ⟨0, 55⟩
      [.node "php_tag" none ⟨0, 5⟩ [],
       .node "expression_statement" none ⟨6, 13⟩
        [.node "assignment_expression" none ⟨6, 12⟩
          [.node "variable_name" (some "left") ⟨6, 8⟩
            [.node "$" none ⟨6, 7⟩ [], .node "name" none ⟨7, 8⟩ []],
           .node "=" none ⟨9, 10⟩ [],
           .node "integer" (some "right") ⟨11, 12⟩ []],
         .node ";" none ⟨12, 13⟩ []],
       .node "expression_statement" none ⟨14, 55⟩
        [.node "assignment_expression" none ⟨14, 54⟩
          [.node "variable_name" (some "left") ⟨14, 16⟩
            [.node "$" none ⟨14, 15⟩ [], .node "name" none ⟨15, 16⟩ []],
           .node "=" none ⟨17, 18⟩ [],
           .node "anonymous_function" (some "right") ⟨19, 54⟩
            [.node "function" none ⟨19, 27⟩ [],
             .node "formal_parameters" (some "parameters") ⟨27, 29⟩
              [.node "(" none ⟨27, 28⟩ [], .node ")" none ⟨28, 29⟩ []],
             .node "anonymous_function_use_clause" none ⟨30, 39⟩
              [.node "use" none ⟨30, 33⟩ [],
               .node "(" none ⟨34, 35⟩ [],
               .node "by_ref" none ⟨35, 38⟩
                [.node "&" none ⟨35, 36⟩ [],
                 .node "variable_name" none ⟨36, 38⟩
                  [.node "$" none ⟨36, 37⟩ [], .node "name" none ⟨37, 38⟩ []]],
               .node ")" none ⟨38, 39⟩ []],
             .node "compound_statement" (some "body") ⟨40, 54⟩
              [.node "\x7b" none ⟨40, 41⟩ [],
               .node "return_statement" none ⟨42, 52⟩
                [.node "return" none ⟨42, 48⟩ [],
                 .node "variable_name" none ⟨49, 51⟩
                  [.node "$" none ⟨49, 50⟩ [], .node "name" none ⟨50, 51⟩ []],
                 .node ";" none ⟨51, 52⟩ []],
               .node "\x7d" none ⟨53, 54⟩ []]]],
         .node ";" none ⟨54, 55⟩ []]]
    let extraction := Extraction.ofTree "file:///test.php" source tree
    extraction.globals.get? "$g" = some (.single (.ofSource "int")) ∧
      extraction.scopes.map (fun c => (c.location, c.get? "$g")) =
        [(.of "file:///test.php" ⟨19, 54⟩, none)] := by
  decide +kernel

end Extract
end PhpIndex
