import PhpIndex.Proofs.Extract.Recording

/-!
# Where references were recorded

A reading records references at the nodes of the tree. At each of them the open scopes are those
of the functions around the node, so that a reference tells the range of the innermost one. The
induction is on the tree: reading a node leaves the open scopes where they were, and when it is
done the scopes of all functions that were entered in it are finished.
Main statements: `traces_walk`, `Document.references_eq_mentions`.
-/
namespace PhpIndex

namespace SyntaxTree

/-- The kinds of nodes that bind variables of their own. -/
def functionKinds : List String :=
  ["function_definition", "method_declaration", "anonymous_function",
   "anonymous_function_creation_expression", "arrow_function"]

def isFunction (tree : SyntaxTree) : Bool := tree.kind ∈ functionKinds

mutual

/-- The functions in a tree, in the order in which they end. -/
def functions : SyntaxTree → List SyntaxTree
  | .node kind field? range children =>
    functionsIn children ++
      if isFunction (.node kind field? range children) then [.node kind field? range children]
      else []

def functionsIn : List SyntaxTree → List SyntaxTree
  | [] => []
  | tree :: rest => functions tree ++ functionsIn rest

end

/-- Whether the nodes lead up to the root, innermost first. -/
inductive IsPath (root : SyntaxTree) : List SyntaxTree → Prop where
  | root : IsPath root [root]
  | child {tree parent : SyntaxTree} {path : List SyntaxTree} (h : IsPath root (parent :: path))
      (htree : tree ∈ parent.children) : IsPath root (tree :: parent :: path)

end SyntaxTree

/-- A reference that was recorded, with the node at which it was and the nodes around that one,
innermost first. -/
structure Mention where
  path : List SyntaxTree
  reference : Reference

namespace Mention

/-- The innermost function around the place where the reference was recorded. -/
def function? (m : Mention) : Option SyntaxTree := m.path.find? SyntaxTree.isFunction

end Mention

namespace Extract

def recorded (path : List SyntaxTree) (items : List Item) : List Mention :=
  (items.filterMap Item.recorded?).map fun r => ⟨path, r⟩

/-- What the construct in front turns into when its node is left. -/
def itemsLeft (range : Range) (s : State) : Open → List Item
  | some construct :: _ => ((construct.finish range).run s).1
  | _ => []

mutual

/-- The references that are recorded while a tree is read, each with where it is. -/
def mentions (path : List SyntaxTree) (surroundings : Surroundings) (around : Open) (s : State) :
    SyntaxTree → List Mention
  | .node kind field? range children =>
    let tree := SyntaxTree.node kind field? range children
    let s := noteComment kind range s
    match atom? kind field? range surroundings s with
    | some item => recorded (tree :: path) [item]
    | none =>
      if children.isEmpty then []
      else
        let (construct?, s) := (enter tree).run s
        let (next, s') := (walkAll ⟨some kind, none⟩ (construct? :: around) children).run s
        mentionsIn (tree :: path) ⟨some kind, none⟩ (construct? :: around) s children ++
          recorded (tree :: path) (itemsLeft range s' next)

def mentionsIn (path : List SyntaxTree) (surroundings : Surroundings) (around : Open) (s : State) :
    List SyntaxTree → List Mention
  | [] => []
  | tree :: rest =>
    let (around', s') := (walk surroundings around tree).run s
    mentions path surroundings around s tree ++
      mentionsIn path { surroundings with previousKind? := some tree.kind } around' s' rest

end

variable {uri : String} {size : Nat}

/-! ## Functions and their scopes -/

theorem atom?_of_isFunction {kind : String} (h : kind ∈ SyntaxTree.functionKinds)
    (field? : Option String) (range : Range) (around : Surroundings) (s : State) :
    atom? kind field? range around s = none := by
  simp only [SyntaxTree.functionKinds, List.mem_cons, List.not_mem_nil, or_false] at h
  rcases h with rfl | rfl | rfl | rfl | rfl <;> rfl

def Role.isCallable : Role → Bool
  | .callable _ => true
  | _ => false

/-- Functions are the nodes that open a scope. -/
theorem Role.any_ofKind? (kind : String) :
    (ofKind? kind).any Role.isCallable = decide (kind ∈ SyntaxTree.functionKinds) := by
  have htable : ∀ p ∈ table, p.2.isCallable = decide (p.1 ∈ SyntaxTree.functionKinds) := by decide
  have hkinds : ∀ k ∈ SyntaxTree.functionKinds, (ofKind? k).any Role.isCallable = true := by decide
  cases hrole : ofKind? kind with
  | none =>
    rw [Option.any_none, eq_comm, decide_eq_false_iff_not]
    intro hkind
    have hcallable := hkinds kind hkind
    rw [hrole] at hcallable
    cases hcallable
  | some role =>
    exact htable _ (Role.mem_table hrole)

theorem Role.isCallable_start (role : Role) (tree : SyntaxTree) (s : State) :
    ((role.start tree).run s).1.isCallable = role.isCallable := by
  cases role with
  | _ => rfl

theorem Construct.isCallable_withDoc {construct next : Construct} {doc : DocComment}
    (h : construct.withDoc doc = some next) : next.isCallable = construct.isCallable := by
  cases construct <;> simp only [withDoc, Option.some.injEq, reduceCtorEq] at h <;>
    subst h <;> rfl

/-- What is opened at a node: at a function, and only there, a function. -/
theorem enter_fst (tree : SyntaxTree) (s : State) :
    ((enter tree).run s).1.any Construct.isCallable = tree.isFunction := by
  rw [SyntaxTree.isFunction, ← Role.any_ofKind? tree.kind]
  rcases enter_cases tree s with ⟨hrole, hnone⟩ | ⟨role, next, hrole, hnext, heq⟩
  · rw [hrole, hnone]
    rfl
  · have hstart := role.isCallable_start tree s
    rw [hrole, hnext]
    rcases heq with rfl | ⟨doc, hdoc⟩
    · exact hstart
    · exact (Construct.isCallable_withDoc hdoc).trans hstart

/-! ## Items at a node -/

theorem scoped_atom (kind : String) (field? : Option String) (range : Range)
    (around : Surroundings) (s : State) :
    ∀ item ∈ atom? kind field? range around s, item.Scoped s.innermost.range? := by
  unfold atom?
  simp only
  split
  · rintro item ⟨⟩
    unfold nameItem
    simp only
    split
    · exact .inl rfl
    · split
      · exact .inl rfl
      · trivial
  · split
    · split
      · rintro item ⟨⟩
        trivial
      · rintro item ⟨⟩
        exact .inr rfl
    · split
      · rintro item ⟨⟩
        trivial
      · split
        · rintro item ⟨⟩
          trivial
        · split
          · rintro item ⟨⟩
            trivial
          · split
            · intro item hitem
              obtain ⟨word, -, rfl⟩ := Option.map_eq_some_iff.1 hitem
              trivial
            · split
              · rintro item ⟨⟩
                trivial
              · intro item hitem
                obtain ⟨type, -, rfl⟩ := Option.map_eq_some_iff.1 hitem
                trivial

theorem mem_recorded {path : List SyntaxTree} {items : List Item} {m : Mention}
    (h : m ∈ recorded path items) : m.path = path ∧
      ∃ item ∈ items, item.recorded? = some m.reference := by
  obtain ⟨r, hr, rfl⟩ := List.mem_map.1 h
  obtain ⟨item, hitem, hrecorded⟩ := List.mem_filterMap.1 hr
  exact ⟨rfl, item, hitem, hrecorded⟩

theorem Item.Scoped.of_recorded? {item : Item} {range? : Option Range} (h : item.Scoped range?)
    {r : Reference} (hr : item.recorded? = some r) :
    r.scopeRange? = none ∨ r.scopeRange? = range? := by
  obtain ⟨value, rfl⟩ := Item.exists_of_recorded? hr
  exact h

theorem map_reference_recorded (path : List SyntaxTree) (items : List Item) :
    (recorded path items).map Mention.reference = items.filterMap Item.recorded? := by
  rw [recorded, List.map_map]
  exact List.map_id _

/-! ## Handing items around -/

/-- Uses of class names are kept without a scope. -/
abbrev Open.Unscoped (around : Open) : Prop := around.Holding (Item.Scoped none)

theorem unscoped_hand (items : List Item) (field? : Option String) {around : Open}
    (h : around.Unscoped) (s : State) : ((hand items field? around).run s).1.Unscoped :=
  Open.holding_hand (fun _ _ _ => .inl rfl) items field? h s

/-! ## Readings -/

/-- Whether the open scopes are those of the functions among the nodes around. -/
def State.Opened (uri : String) (path : List SyntaxTree) (s : State) : Prop :=
  s.scopes.map VariableScope.location =
    (path.filter SyntaxTree.isFunction).map fun n => .of uri n.range

/-- The range of the innermost scope, given that of the document. -/
def rangeAround (document? : Option Range) (path : List SyntaxTree) : Option Range :=
  match path.find? SyntaxTree.isFunction with
  | some n => some n.range
  | none => document?

theorem State.Opened.range?_innermost {path : List SyntaxTree} {s : State}
    (h : s.Opened uri path) : s.innermost.range? = rangeAround s.globals.range? path := by
  unfold State.Opened at h
  unfold State.innermost rangeAround
  rw [← List.head?_filter]
  cases hscopes : s.scopes with
  | nil =>
    rw [hscopes, List.map_nil, eq_comm, List.map_eq_nil_iff] at h
    rw [h]
    rfl
  | cons scope outer =>
    rw [hscopes, List.map_cons, eq_comm, List.map_eq_cons_iff] at h
    obtain ⟨n, rest, hfilter, hlocation, -⟩ := h
    rw [hfilter]
    exact congrArg Location.range? hlocation.symm

/-- What a reading has recorded and finished, from a state in which the scopes of the functions
on the path are open. -/
structure Traces (uri : String) (path functions : List SyntaxTree) (s : State)
    (found : List Mention) (next : Open) (s' : State) : Prop where
  unscoped : next.Unscoped
  references : s'.references = s.references ++ found.map Mention.reference
  globals : s'.globals.location = s.globals.location
  /-- Scopes are finished of functions only, and of all functions around what was recorded that
  were not open before. -/
  finished : ∃ closed : List VariableScope, s'.finished = s.finished ++ closed ∧
    (closed.map VariableScope.location).Sublist (functions.map fun n => .of uri n.range) ∧
    ∀ m ∈ found, ∀ n ∈ m.path, n.isFunction = true →
      n ∈ path ∨ .of uri n.range ∈ closed.map VariableScope.location
  told : ∀ m ∈ found, m.reference.scopeRange? = none ∨
    m.reference.scopeRange? = rangeAround s.globals.range? m.path

namespace Traces
variable {path functions functions' : List SyntaxTree} {s s' s'' : State}
  {found found' : List Mention} {next next' : Open}

theorem refl (hnext : next.Unscoped) : Traces uri path functions s [] next s where
  unscoped := hnext
  references := (List.append_nil _).symm
  globals := rfl
  finished := ⟨[], (List.append_nil _).symm, List.nil_sublist _, List.forall_mem_nil _⟩
  told := List.forall_mem_nil _

/-- Readings one after the other. -/
theorem append (h : Traces uri path functions s found next s')
    (h' : Traces uri path functions' s' found' next' s'') :
    Traces uri path (functions ++ functions') s (found ++ found') next' s'' := by
  constructor
  case unscoped => exact h'.unscoped
  case references =>
    rw [h'.references, h.references, List.map_append, List.append_assoc]
  case globals => exact h'.globals.trans h.globals
  case finished =>
    obtain ⟨closed, hclosed, hsub, hmem⟩ := h.finished
    obtain ⟨closed', hclosed', hsub', hmem'⟩ := h'.finished
    refine ⟨closed ++ closed', by rw [hclosed', hclosed, List.append_assoc], ?_, ?_⟩
    · rw [List.map_append, List.map_append]
      exact hsub.append hsub'
    · rw [List.map_append]
      refine List.forall_mem_append.2 ⟨fun m hm n hn hfunction => ?_, fun m hm n hn hfunction => ?_⟩
      · exact (hmem m hm n hn hfunction).imp_right (List.mem_append_left _)
      · exact (hmem' m hm n hn hfunction).imp_right (List.mem_append_right _)
  case told =>
    have hrange : s'.globals.range? = s.globals.range? := congrArg Location.range? h.globals
    exact List.forall_mem_append.2 ⟨h.told, hrange ▸ h'.told⟩

/-- There may be more functions than were finished. -/
theorem wider (h : Traces uri path [] s found next s') (functions : List SyntaxTree) :
    Traces uri path functions s found next s' := by
  have hnothing : Traces uri path functions s' [] next s' := .refl h.unscoped
  have happend := h.append hnothing
  rwa [List.append_nil] at happend

/-- What went before and recorded nothing. -/
theorem of_still (h : Traces uri path functions s' found next s'') (hstill : s.Still s')
    (hfinished : s'.finished = s.finished) : Traces uri path functions s found next s'' := by
  constructor
  case unscoped => exact h.unscoped
  case references => rw [h.references, hstill.references]
  case globals => exact h.globals.trans hstill.globals
  case finished => exact hfinished ▸ h.finished
  case told =>
    have hrange : s'.globals.range? = s.globals.range? := congrArg Location.range? hstill.globals
    exact hrange ▸ h.told

/-- Seen from outside a node that is no function, or whose scope is finished by now. -/
theorem outside {tree : SyntaxTree} (h : Traces uri (tree :: path) functions s found next s')
    (hclosed : ∀ closed, s'.finished = s.finished ++ closed → tree.isFunction = true →
      .of uri tree.range ∈ closed.map VariableScope.location) :
    Traces uri path functions s found next s' := by
  obtain ⟨closed, hfinished, hsub, hmem⟩ := h.finished
  refine { h with finished := ⟨closed, hfinished, hsub, fun m hm n hn hfunction => ?_⟩ }
  rcases hmem m hm n hn hfunction with hpath | hlocation
  · rcases List.mem_cons.1 hpath with rfl | hpath
    · exact .inr (hclosed closed hfinished hfunction)
    · exact .inl hpath
  · exact .inr hlocation

end Traces

/-- Items that are handed around at a node which is no function. -/
theorem traces_hand {items : List Item} (hitems : ∀ item ∈ items, item.Sound uri size)
    (field? : Option String) {around : Open} (haround : around.Sound uri size)
    (hunscoped : around.Unscoped) {path : List SyntaxTree} {tree : SyntaxTree}
    (htree : tree.isFunction = false) {s : State} (hs : s.Sound uri size)
    (hopened : s.Opened uri path)
    (hscoped : ∀ item ∈ items, item.Scoped s.innermost.range?) :
    Traces uri path [] s (recorded (tree :: path) items) ((hand items field? around).run s).1
      ((hand items field? around).run s).2 := by
  obtain ⟨hreferences, hglobals⟩ := references_hand items field? around s
  obtain ⟨-, -, hkeeps⟩ := ensures_hand hitems field? haround s hs
  constructor
  case unscoped => exact unscoped_hand items field? hunscoped s
  case references => rw [hreferences, map_reference_recorded]
  case globals => exact hglobals
  case finished =>
    refine ⟨[], hkeeps.finished.trans (List.append_nil _).symm, List.nil_sublist _, ?_⟩
    intro m hm n hn hfunction
    rw [(mem_recorded hm).1] at hn
    rcases List.mem_cons.1 hn with rfl | hn
    · rw [htree] at hfunction
      cases hfunction
    · exact .inl hn
  case told =>
    intro m hm
    obtain ⟨hpath, item, hitem, hrecorded⟩ := mem_recorded hm
    have hrange : rangeAround s.globals.range? m.path = s.innermost.range? := by
      rw [hopened.range?_innermost, hpath, rangeAround, List.find?_cons, htree]
      rfl
    rw [hrange]
    exact (hscoped item hitem).of_recorded? hrecorded

/-- A node that was no function is left without closing a scope. -/
theorem Traces.leave {tree : SyntaxTree} {path functions : List SyntaxTree} {s s' : State}
    {found : List Mention} {construct? : Option Construct} {around : Open}
    (h : Traces uri (tree :: path) functions s found (construct? :: around) s')
    (hconstruct : ∀ c ∈ construct?, c.Sound uri size) (haround : around.Sound uri size)
    (hs : s'.Sound uri size) (hrange : tree.range.Within size)
    (hsort : construct?.any Construct.isCallable = false) (htree : tree.isFunction = false)
    (hopened : s'.Opened uri (tree :: path)) (field? : Option String) :
    Traces uri path functions s
      (found ++ recorded (tree :: path) (itemsLeft tree.range s' (construct? :: around)))
      ((Extract.leave construct? field? tree.range around).run s').1
      ((Extract.leave construct? field? tree.range around).run s').2 := by
  have hbefore := h.outside fun _ _ hfunction => by
    rw [htree] at hfunction
    cases hfunction
  have hopened' : s'.Opened uri path := by
    rw [State.Opened, List.filter_cons, htree] at hopened
    exact hopened
  obtain ⟨hself, haroundU⟩ := List.forall_mem_cons.1 h.unscoped
  suffices hleave : Traces uri path [] s'
      (recorded (tree :: path) (itemsLeft tree.range s' (construct? :: around)))
      ((Extract.leave construct? field? tree.range around).run s').1
      ((Extract.leave construct? field? tree.range around).run s').2 by
    have happend := hbefore.append hleave
    rwa [List.append_nil] at happend
  cases construct? with
  | none => exact .refl haroundU
  | some construct =>
    obtain ⟨hitems, hsound, hkeeps⟩ :=
      Construct.ensures_finish (hconstruct construct rfl) hsort hrange s' hs
    have hstill := ample_still.finish construct tree.range s'
    have hscoped := Construct.scoped_finish (hself construct rfl) hsort tree.range s'
    unfold Extract.leave itemsLeft
    rcases hrun : (construct.finish tree.range).run s' with ⟨items, s₁⟩
    rw [hrun] at hitems hsound hkeeps hstill hscoped
    simp only
    rw [run_bind_eq hrun, hrun]
    have hinner : s₁.innermost.range? = s'.innermost.range? := by
      have hopened₁ : s₁.Opened uri path := hkeeps.scopes.trans hopened'
      have hglobals : s₁.globals.range? = s'.globals.range? :=
        congrArg Location.range? hstill.globals
      rw [hopened₁.range?_innermost, hopened'.range?_innermost, hglobals]
    refine (traces_hand hitems field? haround haroundU htree hsound
      (hkeeps.scopes.trans hopened') ?_).of_still hstill hkeeps.finished
    rw [hinner]
    exact hscoped

/-- A function is left by finishing its scope, and nothing is recorded at it. -/
theorem Traces.leave_callable {tree : SyntaxTree} {path functions : List SyntaxTree} {s s' : State}
    {found : List Mention} {c : Callable} {around : Open}
    (h : Traces uri (tree :: path) functions s found (some (.callable c) :: around) s')
    (hc : c.Sound) (haround : around.Sound uri size) (hs : s'.Sound uri size)
    (hrange : tree.range.Within size) (htree : tree.isFunction = true)
    (hopened : s'.Opened uri (tree :: path)) (field? : Option String) :
    Traces uri path (functions ++ [tree]) s
      (found ++ recorded (tree :: path)
        (itemsLeft tree.range s' (some (.callable c) :: around)))
      ((Extract.leave (some (.callable c)) field? tree.range around).run s').1
      ((Extract.leave (some (.callable c)) field? tree.range around).run s').2 := by
  obtain ⟨hleave, hitems⟩ := run_leave_callable hc hrange hs field? around
  have hsilent := c.scoped_finish tree.range s'
  have hnone : recorded (tree :: path) (itemsLeft tree.range s' (some (.callable c) :: around)) =
      [] := by
    have hmap : ((c.finish tree.range).run s').1.filterMap Item.recorded? = [] :=
      List.filterMap_eq_nil_iff.2 hsilent
    exact congrArg _ hmap
  have hlocations : s'.scopes.map VariableScope.location = .of uri tree.range ::
      (path.filter SyntaxTree.isFunction).map fun n => .of uri n.range := by
    rw [State.Opened, List.filter_cons, htree] at hopened
    exact hopened
  obtain ⟨scope, hscope, -, hfinished⟩ := s'.exists_closed hlocations
  obtain ⟨hreferences, hglobals⟩ :=
    references_hand ((c.finish tree.range).run s').1 field? around s'.closeScope
  obtain ⟨-, -, hkeeps⟩ := ensures_hand hitems field? haround _ hs.closeScope
  have hunscoped := unscoped_hand ((c.finish tree.range).run s').1 field?
    (List.forall_mem_cons.1 h.unscoped).2 s'.closeScope
  rw [List.filterMap_eq_nil_iff.2 hsilent, List.append_nil] at hreferences
  rw [hnone, List.append_nil, hleave]
  obtain ⟨closed, hclosed, hsub, hmem⟩ := h.finished
  have hfinished' : ((hand ((c.finish tree.range).run s').1 field? around).run
      s'.closeScope).2.finished = s.finished ++ (closed ++ [scope]) := by
    rw [hkeeps.finished, hfinished, hclosed, List.append_assoc]
  have hinside : Traces uri (tree :: path) (functions ++ [tree]) s found
      ((hand ((c.finish tree.range).run s').1 field? around).run s'.closeScope).1
      ((hand ((c.finish tree.range).run s').1 field? around).run s'.closeScope).2 := by
    constructor
    case unscoped => exact hunscoped
    case references =>
      rw [hreferences, (ample_still.closeScope s').references, h.references]
    case globals => exact hglobals.trans ((ample_still.closeScope s').globals.trans h.globals)
    case finished =>
      refine ⟨closed ++ [scope], hfinished', ?_, fun m hm n hn hfunction => ?_⟩
      · rw [List.map_append, List.map_append, List.map_singleton, List.map_singleton, hscope]
        exact hsub.append (List.Sublist.refl _)
      · rw [List.map_append]
        exact (hmem m hm n hn hfunction).imp_right (List.mem_append_left _)
    case told => exact h.told
  refine hinside.outside fun closed' hclosed' _ => ?_
  obtain rfl := List.append_cancel_left (hclosed'.symm.trans hfinished')
  rw [List.map_append, List.map_singleton, hscope]
  exact List.mem_append_right _ List.mem_cons_self

/-! ## Reading a node -/

section
variable {kind : String} {field? : Option String} {range : Range} {children : List SyntaxTree}
  {surroundings : Surroundings} {around : Open} {s : State}

/-- What a node is read as is decided after its comment was noted. -/
theorem run_noted (action : State → StateM State Open) :
    StateT.run (do
      modify fun s => noteComment kind range s
      action (← get)) s = (action (noteComment kind range s)).run (noteComment kind range s) := rfl

theorem run_walk_atom (around : Open) (children : List SyntaxTree) {item : Item}
    (hatom : atom? kind field? range surroundings (noteComment kind range s) = some item) :
    ∃ doc?, (walk surroundings around (.node kind field? range children)).run s =
      (hand [item] field? around).run { noteComment kind range s with doc? := doc? } := by
  unfold walk
  rw [run_noted, hatom]
  simp only
  split
  · exact ⟨none, rfl⟩
  · exact ⟨_, rfl⟩

theorem mentions_atom {path : List SyntaxTree} {item : Item}
    (hatom : atom? kind field? range surroundings (noteComment kind range s) = some item) :
    mentions path surroundings around s (.node kind field? range children) =
      recorded (.node kind field? range children :: path) [item] := by
  unfold mentions
  simp only [hatom]

theorem run_walk_leaf
    (hatom : atom? kind field? range surroundings (noteComment kind range s) = none) :
    (walk surroundings around (.node kind field? range [])).run s =
      if kind = "comment" then (around, noteComment kind range s)
      else (hand [.token ((noteComment kind range s).text range)] field? around).run
        (noteComment kind range s) := by
  unfold walk
  rw [run_noted, hatom]
  simp only [List.isEmpty_nil, if_true]
  split <;> rfl

theorem mentions_leaf {path : List SyntaxTree}
    (hatom : atom? kind field? range surroundings (noteComment kind range s) = none) :
    mentions path surroundings around s (.node kind field? range []) = [] := by
  unfold mentions
  simp only [hatom, List.isEmpty_nil, if_true]

theorem run_walk_node
    (hatom : atom? kind field? range surroundings (noteComment kind range s) = none)
    (hchildren : children.isEmpty = false) {construct? : Option Construct} {s₁ s₂ : State}
    (henter : (enter (.node kind field? range children)).run (noteComment kind range s) =
      (construct?, s₁)) {next? : Option Construct} {next : Open}
    (hwalk : (walkAll ⟨some kind, none⟩ (construct? :: around) children).run s₁ =
      (next? :: next, s₂)) :
    (walk surroundings around (.node kind field? range children)).run s =
      (leave next? field? range next).run s₂ := by
  unfold walk
  rw [run_noted, hatom]
  simp only [hchildren, Bool.false_eq_true, if_false]
  rw [run_bind_eq henter, run_bind_eq hwalk]

theorem mentions_node {path : List SyntaxTree}
    (hatom : atom? kind field? range surroundings (noteComment kind range s) = none)
    (hchildren : children.isEmpty = false) {construct? : Option Construct} {s₁ s₂ : State}
    (henter : (enter (.node kind field? range children)).run (noteComment kind range s) =
      (construct?, s₁)) {next : Open}
    (hwalk : (walkAll ⟨some kind, none⟩ (construct? :: around) children).run s₁ = (next, s₂)) :
    mentions path surroundings around s (.node kind field? range children) =
      mentionsIn (.node kind field? range children :: path) ⟨some kind, none⟩
          (construct? :: around) s₁ children ++
        recorded (.node kind field? range children :: path) (itemsLeft range s₂ next) := by
  unfold mentions
  simp only [hatom, hchildren, Bool.false_eq_true, if_false, henter, hwalk]

end

/-- A node that is no atom: its construct is open while its children are read. -/
theorem traces_node {kind : String} {field? : Option String} {range : Range}
    {children : List SyntaxTree} (hchildren : SyntaxTree.nestedIn range children = true)
    (hle : range.start ≤ range.stop) (hrange : range.Within size) {around : Open}
    (haround : around.Sound uri size) (hunscoped : around.Unscoped) {path : List SyntaxTree}
    {s : State} (hs : s.Sound uri size) (hopened : s.Opened uri path)
    {construct? : Option Construct} {s₁ : State}
    (henter : (enter (.node kind field? range children)).run s = (construct?, s₁))
    {next : Open} {s₂ : State}
    (hwalk : (walkAll ⟨some kind, none⟩ (construct? :: around) children).run s₁ = (next, s₂))
    (hinside : s₁.Sound uri size → s₁.Opened uri (.node kind field? range children :: path) →
      Open.Sound uri size (construct? :: around) → Open.Unscoped (construct? :: around) →
      Traces uri (.node kind field? range children :: path) (SyntaxTree.functionsIn children) s₁
        found next s₂) :
    ∃ next? outer, next = next? :: outer ∧
      Traces uri path (SyntaxTree.node kind field? range children).functions s
        (found ++ recorded (.node kind field? range children :: path) (itemsLeft range s₂ next))
        ((leave next? field? range outer).run s₂).1 ((leave next? field? range outer).run s₂).2 := by
  have henters := enters_enter (.node kind field? range children) hs
  have hfunction := enter_fst (.node kind field? range children) s
  have hconstruct := holding_enter (P := Item.Scoped none) (.node kind field? range children) s
  have hstill := ample_still.enter (.node kind field? range children) s
  rw [henter] at henters hfunction hconstruct hstill
  have hsound : Open.Sound uri size (construct? :: around) :=
    List.forall_mem_cons.2 ⟨henters.construct, haround⟩
  have hopened₁ : s₁.Opened uri (.node kind field? range children :: path) := by
    rw [State.Opened, henters.scopes, hfunction, List.filter_cons]
    split
    · exact congrArg _ hopened
    · exact hopened
  have htraces := hinside henters.sound hopened₁ hsound
    (List.forall_mem_cons.2 ⟨hconstruct, hunscoped⟩)
  obtain ⟨hfollows, hsound₂, hgrows⟩ :=
    reads_walkAll children hchildren hle hrange ⟨some kind, none⟩ hsound s₁ henters.sound
  rw [hwalk] at hfollows hsound₂ hgrows
  have hopened₂ : s₂.Opened uri (.node kind field? range children :: path) :=
    hgrows.scopes.trans hopened₁
  cases next with
  | nil => cases hfollows.sorts
  | cons next? outer =>
    obtain ⟨hnext, houter⟩ := List.forall_mem_cons.1 hfollows.sound
    obtain ⟨hsort, -⟩ := List.cons.inj hfollows.sorts
    refine ⟨next?, outer, rfl, .of_still ?_ hstill henters.finished⟩
    have hsort' := hsort.trans hfunction
    unfold SyntaxTree.functions
    cases htree : SyntaxTree.isFunction (.node kind field? range children) with
    | false =>
      rw [htree] at hsort'
      rw [if_neg Bool.false_ne_true, List.append_nil]
      exact htraces.leave hnext houter hsound₂ hrange hsort' htree hopened₂ field?
    | true =>
      rw [htree] at hsort'
      rw [if_pos rfl]
      cases next? with
      | none => cases hsort'
      | some construct =>
        cases construct with
        | callable c =>
          exact htraces.leave_callable (hnext _ rfl) houter hsound₂ hrange htree hopened₂ field?
        | _ => cases hsort'

mutual

theorem traces_walk : (tree : SyntaxTree) → tree.nested = true → tree.range.Within size →
    (surroundings : Surroundings) → {around : Open} → around.Sound uri size → around.Unscoped →
    (path : List SyntaxTree) → {s : State} → s.Sound uri size → s.Opened uri path →
    Traces uri path tree.functions s (mentions path surroundings around s tree)
      ((walk surroundings around tree).run s).1 ((walk surroundings around tree).run s).2
  | .node kind field? range children, hnested, hrange, surroundings, around, haround, hunscoped,
    path, s, hs, hopened => by
    rw [SyntaxTree.nested, Bool.and_eq_true, decide_eq_true_eq] at hnested
    obtain ⟨hle, hchildren⟩ := hnested
    obtain ⟨-, hnoted, hkeeps⟩ := ensures_noteComment kind range s hs
    have hstill := ample_still.quiet.noteComment kind range s
    have hopened' : (noteComment kind range s).Opened uri path := hkeeps.scopes.trans hopened
    cases hatom : atom? kind field? range surroundings (noteComment kind range s) with
    | some item =>
      have hsound := sound_atom kind field? hrange surroundings hnoted item hatom
      have hscoped := scoped_atom kind field? range surroundings _ item hatom
      have hfunction : SyntaxTree.isFunction (.node kind field? range children) = false := by
        refine decide_eq_false fun (hkind : kind ∈ SyntaxTree.functionKinds) => ?_
        rw [atom?_of_isFunction hkind] at hatom
        cases hatom
      obtain ⟨doc?, hrun⟩ := run_walk_atom around children hatom
      rw [hrun, mentions_atom hatom]
      generalize hs' : ({ noteComment kind range s with doc? := doc? } : State) = s'
      have hsound' : s'.Sound uri size := hs' ▸ { hnoted with }
      have hopened'' : s'.Opened uri path := hs' ▸ hopened'
      have hscoped' : item.Scoped s'.innermost.range? := hs' ▸ hscoped
      have hhand := traces_hand (List.forall_mem_singleton.2 hsound) field? haround hunscoped
        hfunction hsound' hopened'' (List.forall_mem_singleton.2 hscoped')
      refine (hhand.wider _).of_still ?_ ?_
      · exact hs' ▸ ample_still.trans hstill (ample_still.doc _ doc?)
      · exact hs' ▸ hkeeps.finished
    | none =>
      cases children with
      | nil =>
        rw [run_walk_leaf hatom, mentions_leaf hatom]
        refine Traces.of_still ?_ hstill hkeeps.finished
        split
        · exact .refl hunscoped
        · have hitems : ∀ item ∈ [Item.token ((noteComment kind range s).text range)],
              item.Sound uri size := List.forall_mem_singleton.2 trivial
          have hleaf : SyntaxTree.isFunction (.node "" none range []) = false := rfl
          have hhand := traces_hand hitems field? haround hunscoped hleaf hnoted hopened'
            (List.forall_mem_singleton.2 trivial)
          exact hhand.wider _
      | cons tree rest =>
        rcases henter : (enter (.node kind field? range (tree :: rest))).run
          (noteComment kind range s) with ⟨construct?, s₁⟩
        rcases hwalk : (walkAll ⟨some kind, none⟩ (construct? :: around) (tree :: rest)).run s₁
          with ⟨next, s₂⟩
        have hinside (hs₁ : s₁.Sound uri size) (hopened₁ : s₁.Opened uri _)
            (haround₁ : Open.Sound uri size (construct? :: around))
            (hunscoped₁ : Open.Unscoped (construct? :: around)) := by
          have htraces := traces_walkAll (tree :: rest) hchildren hle hrange ⟨some kind, none⟩
            haround₁ hunscoped₁ (.node kind field? range (tree :: rest) :: path) hs₁ hopened₁
          rwa [hwalk] at htraces
        obtain ⟨next?, outer, rfl, htraces⟩ := traces_node hchildren hle hrange haround hunscoped
          hnoted hopened' henter hwalk hinside
        rw [run_walk_node hatom rfl henter hwalk, mentions_node hatom rfl henter hwalk]
        exact htraces.of_still hstill hkeeps.finished

theorem traces_walkAll : (trees : List SyntaxTree) → {range : Range} →
    SyntaxTree.nestedIn range trees = true → range.start ≤ range.stop → range.Within size →
    (surroundings : Surroundings) → {around : Open} → around.Sound uri size → around.Unscoped →
    (path : List SyntaxTree) → {s : State} → s.Sound uri size → s.Opened uri path →
    Traces uri path (SyntaxTree.functionsIn trees) s (mentionsIn path surroundings around s trees)
      ((walkAll surroundings around trees).run s).1 ((walkAll surroundings around trees).run s).2
  | [], range, _, _, _, surroundings, around, haround, hunscoped, path, s, hs, hopened => by
    unfold walkAll mentionsIn
    exact .refl hunscoped
  | tree :: rest, range, hnested, hle, hrange, surroundings, around, haround, hunscoped, path, s,
    hs, hopened => by
    obtain ⟨hin, htree, hrest, hbehind⟩ := SyntaxTree.nestedIn_cons hnested
    have hstop := (Range.encloses_iff.1 hin).2
    have hwithin := hrange.mono hin (SyntaxTree.start_le_stop htree)
    obtain ⟨hnext, hsound, hgrows⟩ := reads_walk tree htree hwithin surroundings haround s hs
    have hfirst := traces_walk tree htree hwithin surroundings haround hunscoped path hs hopened
    rcases hwalk : (walk surroundings around tree).run s with ⟨next, s'⟩
    rw [hwalk] at hnext hsound hgrows hfirst
    have hsecond := traces_walkAll rest hrest hstop (hrange.mono hbehind hstop)
      { surroundings with previousKind? := some tree.kind } hnext.sound hfirst.unscoped path hsound
      (hgrows.scopes.trans hopened)
    unfold walkAll mentionsIn SyntaxTree.functionsIn
    rw [run_bind_eq hwalk, hwalk]
    exact hfirst.append hsecond

end

/-! ## Paths -/

theorem path_of_mem_recorded {path : List SyntaxTree} {items : List Item} {root : SyntaxTree}
    (h : root.IsPath path) : ∀ m ∈ recorded path items, root.IsPath m.path :=
  fun _ hm => (mem_recorded hm).1 ▸ h

mutual

theorem isPath_mentions {root : SyntaxTree} : (tree : SyntaxTree) → (path : List SyntaxTree) →
    root.IsPath (tree :: path) → (surroundings : Surroundings) → (around : Open) → (s : State) →
    ∀ m ∈ mentions path surroundings around s tree, root.IsPath m.path
  | .node kind field? range children, path, hpath, surroundings, around, s => by
    unfold mentions
    simp only
    split
    · exact path_of_mem_recorded hpath
    · split
      · exact List.forall_mem_nil _
      · exact List.forall_mem_append.2 ⟨isPath_mentionsIn children _ path hpath
          (List.Subset.refl _) _ _ _, path_of_mem_recorded hpath⟩

theorem isPath_mentionsIn {root : SyntaxTree} : (trees : List SyntaxTree) →
    (parent : SyntaxTree) → (path : List SyntaxTree) → root.IsPath (parent :: path) →
    trees ⊆ parent.children → (surroundings : Surroundings) → (around : Open) → (s : State) →
    ∀ m ∈ mentionsIn (parent :: path) surroundings around s trees, root.IsPath m.path
  | [], parent, path, hpath, hsub, surroundings, around, s => by
    unfold mentionsIn
    exact List.forall_mem_nil _
  | tree :: rest, parent, path, hpath, hsub, surroundings, around, s => by
    unfold mentionsIn
    obtain ⟨htree, hrest⟩ := List.cons_subset.1 hsub
    exact List.forall_mem_append.2 ⟨isPath_mentions tree _ (hpath.child htree) _ _ _,
      isPath_mentionsIn rest parent path hpath hrest _ _ _⟩

end

end Extract

/-! ## Documents -/

theorem Range.within_size (r : Range) : r.Within UInt32.size :=
  ⟨Nat.le_of_lt r.start.toNat_lt, Nat.le_of_lt r.stop.toNat_lt⟩

namespace Document

/-- The references of a document, in order, each with where it is. -/
def mentions (uri text : String) (tree : SyntaxTree) : List Mention :=
  Extract.mentions [] ⟨none, none⟩ [] (.start uri text) tree

variable (uri text : String) (modified : Int64) {tree : SyntaxTree}

theorem traces_ofTree (hnested : tree.nested = true) :
    Extract.Traces uri [] tree.functions (.start uri text) (mentions uri text tree)
      ((Extract.walk ⟨none, none⟩ [] tree).run (.start uri text)).1
      ((Extract.walk ⟨none, none⟩ [] tree).run (.start uri text)).2 :=
  Extract.traces_walk tree hnested tree.range.within_size ⟨none, none⟩
    (List.forall_mem_nil _) (List.forall_mem_nil _) []
    (Extract.State.sound_start uri text UInt32.size) rfl

theorem references_eq_mentions (hnested : tree.nested = true) :
    (ofTree uri text modified tree).references =
      (mentions uri text tree).map Mention.reference :=
  (traces_ofTree uri text hnested).references

theorem isPath_mentions : ∀ m ∈ mentions uri text tree, tree.IsPath m.path :=
  Extract.isPath_mentions tree [] .root _ _ _

/-- The range of a text. -/
def extent (text : String) : Range := ⟨0, .ofNat text.utf8ByteSize⟩

/-- A reference that tells a scope tells that of the innermost function around it. -/
theorem scopeRange?_mention (hnested : tree.nested = true) {m : Mention}
    (hm : m ∈ mentions uri text tree) {range : Range}
    (hrange : m.reference.scopeRange? = some range) :
    range = (m.function?.map SyntaxTree.range).getD (extent text) := by
  have htold := (traces_ofTree uri text hnested).told m hm
  rw [hrange] at htold
  rcases htold with hnone | hsome
  · cases hnone
  · unfold Extract.rangeAround at hsome
    unfold Mention.function?
    cases hfunction : m.path.find? SyntaxTree.isFunction with
    | none =>
      rw [hfunction] at hsome
      exact Option.some.inj hsome
    | some n =>
      rw [hfunction] at hsome
      exact Option.some.inj hsome

/-- Scopes are those of functions, at most one for each. -/
theorem scopes_sublist (hnested : tree.nested = true) :
    ((ofTree uri text modified tree).scopes.map VariableScope.location).Sublist
      (tree.functions.map fun n => .of uri n.range) := by
  obtain ⟨closed, hclosed, hsub, -⟩ := (traces_ofTree uri text hnested).finished
  have hscopes : (ofTree uri text modified tree).scopes = closed := hclosed
  rw [hscopes]
  exact hsub

/-- All functions around a reference have their scopes. -/
theorem exists_scope_of_mention (hnested : tree.nested = true) {m : Mention}
    (hm : m ∈ mentions uri text tree) {n : SyntaxTree} (hfunction : m.function? = some n) :
    ∃ s ∈ (ofTree uri text modified tree).scopes, s.location = .of uri n.range := by
  obtain ⟨closed, hclosed, -, hmem⟩ := (traces_ofTree uri text hnested).finished
  have hscopes : (ofTree uri text modified tree).scopes = closed := hclosed
  rcases hmem m hm n (List.mem_of_find?_eq_some hfunction) (List.find?_some hfunction) with hn | hn
  · cases hn
  · rw [hscopes]
    obtain ⟨s, hs, hlocation⟩ := List.mem_map.1 hn
    exact ⟨s, hs, hlocation⟩

end Document
end PhpIndex
