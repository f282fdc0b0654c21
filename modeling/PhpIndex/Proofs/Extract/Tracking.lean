import Mathlib.Data.List.Forall2
import PhpIndex.Proofs.Extract.Members

/-!
# Where findings come from

Every item of a reading is that of a node of the tree, and a construct keeps of the items in its
own node only. A property of items and their nodes, with one of constructs and one of imports, is
followed from step to step: the items of atoms have it, and the items that a construct turns into
have it if those that it has taken up had it. Then each finding has it at some node of the tree.
Main statements: `Tracking.finds_walk`, `Tracking.symbol_ofTree`, `Tracking.reference_ofTree`.
-/
namespace PhpIndex

/-- The text at a range, empty if the range does not cover whole characters. -/
def Range.text (r : Range) (source : String) : String :=
  (Text.slice? source r.start.toNat r.stop.toNat).getD ""

theorem Range.text_of_isEmpty {r : Range} (h : r.isEmpty = true) (source : String) :
    r.text source = "" := by
  have hle : r.stop.toNat ≤ r.start.toNat := of_decide_eq_true h
  unfold text Text.slice?
  split
  next hbounds =>
    have hempty : source.toUTF8.extract r.start.toNat r.stop.toNat = ByteArray.empty := by
      rw [ByteArray.extract_eq_empty_iff]
      omega
    rw [hempty]
    rfl
  · rfl

namespace SyntaxTree

/-- Whether the node is the root or lies below it. -/
inductive Holds (root : SyntaxTree) : SyntaxTree → Prop where
  | root : Holds root root
  | child {parent tree : SyntaxTree} (h : Holds root parent) (htree : tree ∈ parent.children) :
      Holds root tree

theorem Holds.trans {a b c : SyntaxTree} (hab : a.Holds b) (hbc : b.Holds c) : a.Holds c := by
  induction hbc with
  | root => exact hab
  | child _ htree ih => exact .child ih htree

theorem Holds.of_all {p : SyntaxTree → Bool} {root : SyntaxTree}
    (h : root.all p = true) {node : SyntaxTree} (hnode : root.Holds node) :
    p node = true ∧ allIn p node.children = true := by
  have hsplit {tree : SyntaxTree} (htree : tree.all p = true) :
      p tree = true ∧ allIn p tree.children = true := by
    cases tree with
    | node kind field? range children =>
      rw [all, Bool.and_eq_true] at htree
      exact htree
  have hmem {trees : List SyntaxTree} (htrees : allIn p trees = true) :
      ∀ tree ∈ trees, tree.all p = true := by
    induction trees with
    | nil => exact List.forall_mem_nil _
    | cons tree rest ih =>
      rw [allIn, Bool.and_eq_true] at htrees
      exact List.forall_mem_cons.2 ⟨htrees.1, ih htrees.2⟩
  induction hnode with
  | root => exact hsplit h
  | child _ htree ih => exact hsplit (hmem ih.2 _ htree)

theorem IsPath.holds {root tree : SyntaxTree} {path : List SyntaxTree}
    (h : root.IsPath (tree :: path)) : root.Holds tree := by
  induction path generalizing tree with
  | nil => cases h; exact .root
  | cons parent path ih =>
    cases h with
    | child hparent htree => exact .child (ih hparent) htree

/-- The nodes on the way up lie around the one that they lead up from. -/
theorem IsPath.holds_of_mem {root tree : SyntaxTree} {path : List SyntaxTree}
    (h : root.IsPath (tree :: path)) : ∀ outer ∈ path, outer.Holds tree := by
  induction path generalizing tree with
  | nil => exact List.forall_mem_nil _
  | cons parent path ih =>
    cases h with
    | child hparent htree =>
      refine List.forall_mem_cons.2 ⟨.child .root htree, fun outer houter => ?_⟩
      exact .child (ih hparent outer houter) htree

end SyntaxTree

namespace Extract
variable {uri source : String}

/-! ## Imports -/

namespace State

@[simp]
theorem imports_bind (s : State) (name : String) (types : TypeUnion) :
    (s.bind name types).imports = s.imports := by
  unfold bind
  split <;> rfl

@[simp]
theorem imports_modifyClass (s : State) (f : ClassContext → ClassContext) :
    (s.modifyClass f).imports = s.imports := by
  unfold modifyClass
  split <;> rfl

@[simp]
theorem imports_closeScope (s : State) : s.closeScope.imports = s.imports := by
  unfold closeScope
  split <;> rfl

end State

theorem quiet_imports : Quiet fun s s' => s'.imports = s.imports where
  refl _ := rfl
  trans h h' := h'.trans h
  doc _ _ := rfl
  bind := State.imports_bind
  parent s _ := s.imports_modifyClass _

namespace Construct

/-- Only a `namespace` statement changes the imports when it takes up an item. -/
theorem imports_accept {construct : Construct} (hnamespace : construct.isNamespace = false)
    (item : Item) (place : Place) (s : State) :
    ((construct.accept item place).run s).2.imports = s.imports := by
  rcases quiet_imports.accept hnamespace item place s with
    ⟨hsmall, -⟩ | ⟨-, -, _, _, _, -, -, hstep⟩
  · exact hsmall
  · rw [hstep]
    exact s.imports_modifyClass _

/-- The statements about names change the imports when they are left, and nothing else does. -/
theorem imports_finish {construct : Construct} (hnamespace : construct.isNamespace = false)
    (huse : construct.isUse = false) (range : Range) (s : State) :
    ((construct.finish range).run s).2.imports = s.imports := by
  cases construct with
  | classBody c =>
    rw [state_finish_classBody]
    rfl
  | callable c =>
    rw [state_finish_callable]
    exact s.imports_closeScope
  | _ => exact quiet_imports.finish rfl hnamespace huse range s

end Construct

/-! ## Places -/

/-- Whether a node stands at the place, as seen from a node around it. -/
def Place.Fits (outer node : SyntaxTree) : Place → Prop
  | .child field? => node ∈ outer.children ∧ node.field? = field?
  | .deeper => outer.Holds node

theorem Place.Fits.holds {outer node : SyntaxTree} {place : Place} (h : place.Fits outer node) :
    outer.Holds node := by
  cases place with
  | child field? => exact .child .root h.1
  | deeper => exact h

theorem Place.Fits.mem_children {outer node : SyntaxTree} {place : Place}
    (h : place.Fits outer node) (hchild : place.isChild = true) : node ∈ outer.children := by
  cases place with
  | child field? => exact h.1
  | deeper => cases hchild

theorem Place.Fits.field? {outer node : SyntaxTree} {place : Place} (h : place.Fits outer node)
    {name : String} (hfield : place.isField name = true) :
    node ∈ outer.children ∧ node.field? = some name := by
  cases place with
  | child field? => exact ⟨h.1, h.2.trans (eq_of_beq hfield)⟩
  | deeper => cases hfield

/-! ## Properties that are followed -/

/-- A property of items at nodes, of the constructs opened at nodes, and of imports. -/
structure Tracking where
  item : SyntaxTree → Item → Prop
  construct : SyntaxTree → Construct → Prop
  imports : Imports → Prop

/-- Whether the state is one of a reading of the document, with such imports. -/
structure State.Reads (uri source : String) (imports : Imports → Prop) (s : State) : Prop where
  uri : s.uri = uri
  source : s.source = source
  imports : imports s.imports

theorem State.Reads.text_eq {imports : Imports → Prop} {s : State} (hs : s.Reads uri source imports)
    (range : Range) : s.text range = range.text source := by
  rw [State.text, hs.source, Range.text]

namespace Tracking

/-- Whether every step of a reading of the document keeps the properties. -/
structure Lawful (T : Tracking) (uri source : String) (root : SyntaxTree) : Prop where
  atom : ∀ {node : SyntaxTree} {surroundings : Surroundings} {s : State} {item : Item},
    s.Reads uri source T.imports →
    atom? node.kind node.field? node.range surroundings s = some item → T.item node item
  token : ∀ (node : SyntaxTree) {s : State}, s.Reads uri source T.imports →
    T.item node (.token (s.text node.range))
  start : ∀ {node : SyntaxTree} {role : Role}, root.Holds node →
    Role.ofKind? node.kind = some role →
    ∀ s : State, T.construct node ((role.start node).run s).1
  withDoc : ∀ {node : SyntaxTree} {construct next : Construct} {doc : DocComment},
    construct.withDoc doc = some next → T.construct node construct → T.construct node next
  accept : ∀ {outer node : SyntaxTree} {construct : Construct} {item : Item} {place : Place}
    {s : State}, T.construct outer construct → T.item node item → place.Fits outer node →
    s.Reads uri source T.imports →
    T.construct outer ((construct.accept item place).run s).1.1
  finish : ∀ {node : SyntaxTree} {construct : Construct} {s : State}, T.construct node construct →
    s.Reads uri source T.imports →
    ∀ item ∈ ((construct.finish node.range).run s).1, T.item node item
  empty : T.imports .empty
  setNamespace : ∀ {imports : Imports} (name : String), T.imports imports →
    T.imports (imports.setNamespace name)
  addImport : ∀ {node : SyntaxTree} {u : UseStatement} {clause : UseClause} {imports : Imports}
    (kind : ImportKind), T.construct node (.useStatement u) → clause ∈ u.clauses →
    T.imports imports → T.imports (imports.addImport kind (u.target clause) clause.alias?)

/-- What holds of a state while the document is read: its findings come from the tree. -/
structure Finds (T : Tracking) (uri source : String) (root : SyntaxTree) (s : State) : Prop where
  reads : s.Reads uri source T.imports
  symbols : ∀ x ∈ s.symbols, ∃ node, root.Holds node ∧ T.item node (.symbol x)
  references : ∀ r ∈ s.references, ∃ node value, root.Holds node ∧ T.item node (.reference r value)

/-- Whether each construct that is open has the property at its node. -/
def Around (T : Tracking) : Open → List SyntaxTree → Prop :=
  List.Forall₂ fun construct? node => ∀ construct ∈ construct?, T.construct node construct

variable {T : Tracking} {root : SyntaxTree} {s s' : State}

namespace Finds

theorem still (h : T.Finds uri source root s) (hs : s.Still s') (himports : T.imports s'.imports) :
    T.Finds uri source root s' where
  reads := ⟨hs.uri.trans h.reads.uri, hs.source.trans h.reads.source, himports⟩
  symbols := hs.symbols ▸ h.symbols
  references := hs.references ▸ h.references

/-- Where imports stay as they are. -/
theorem beside (h : T.Finds uri source root s) (hs : s.Still s')
    (himports : s'.imports = s.imports) : T.Finds uri source root s' :=
  h.still hs (himports ▸ h.reads.imports)

theorem record (h : T.Finds uri source root s) {node : SyntaxTree} (hnode : root.Holds node)
    {item : Item} (hitem : T.item node item) : T.Finds uri source root (s.record item) := by
  cases item with
  | symbol x =>
    refine ⟨⟨h.reads.uri, h.reads.source, h.reads.imports⟩, ?_, h.references⟩
    exact List.forall_mem_append.2 ⟨h.symbols, List.forall_mem_singleton.2 ⟨node, hnode, hitem⟩⟩
  | reference r value =>
    unfold State.record
    simp only
    split
    · exact h
    · refine ⟨⟨h.reads.uri, h.reads.source, h.reads.imports⟩, h.symbols, ?_⟩
      exact List.forall_mem_append.2
        ⟨h.references, List.forall_mem_singleton.2 ⟨node, value, hnode, hitem⟩⟩
  | _ => exact h

end Finds

/-! ## Steps -/

section Lawful
variable (hT : T.Lawful uri source root)
include hT

theorem finds_accept {outer node : SyntaxTree} {construct : Construct}
    (hconstruct : T.construct outer construct) {item : Item} (hitem : T.item node item)
    {place : Place} (hplace : place.Fits outer node) (hs : T.Finds uri source root s) :
    T.construct outer ((construct.accept item place).run s).1.1 ∧
      T.Finds uri source root ((construct.accept item place).run s).2 := by
  refine ⟨hT.accept hconstruct hitem hplace hs.reads, ?_⟩
  have hstill := ample_still.accept construct item place s
  cases construct with
  | namespaceStatement n =>
    refine hs.still hstill ?_
    change T.imports ((n.accept item place).run s).2.imports
    unfold NamespaceStatement.accept
    split
    · split
      · exact hT.setNamespace _ hs.reads.imports
      · exact hs.reads.imports
    · exact hs.reads.imports
  | _ => exact hs.beside hstill (Construct.imports_accept rfl item place s)

theorem imports_finish_useStatement {node : SyntaxTree} {u : UseStatement}
    (hu : T.construct node (.useStatement u)) (hs : T.imports s.imports) :
    T.imports (u.finish.run s).2.imports := by
  have hclauses {clauses : List UseClause} (hsub : clauses ⊆ u.clauses) {s : State}
      (hs : T.imports s.imports) : T.imports ((clauses.mapM u.register).run s).2.imports := by
    induction clauses generalizing s with
    | nil => exact hs
    | cons clause rest ih =>
      obtain ⟨hclause, hrest⟩ := List.cons_subset.1 hsub
      rw [List.mapM_cons]
      exact ih hrest (s := ((u.register clause).run s).2) (hT.addImport _ hu hclause hs)
  exact hclauses (List.Subset.refl _) hs

theorem finds_finish {node : SyntaxTree} {construct : Construct}
    (hconstruct : T.construct node construct) (hs : T.Finds uri source root s) :
    (∀ item ∈ ((construct.finish node.range).run s).1, T.item node item) ∧
      T.Finds uri source root ((construct.finish node.range).run s).2 := by
  refine ⟨hT.finish hconstruct hs.reads, ?_⟩
  have hstill := ample_still.finish construct node.range s
  cases construct with
  | namespaceStatement n =>
    refine hs.still hstill ?_
    change T.imports (n.finish.run s).2.imports
    unfold NamespaceStatement.finish
    split
    · exact hT.empty
    · exact hs.reads.imports
  | useStatement u =>
    exact hs.still hstill (imports_finish_useStatement hT hconstruct hs.reads.imports)
  | _ => exact hs.beside hstill (Construct.imports_finish rfl rfl _ s)

theorem finds_takeDoc (kind : String) {node : SyntaxTree} {construct? : Option Construct}
    (hconstruct : ∀ c ∈ construct?, T.construct node c) (hs : T.Finds uri source root s) :
    (∀ c ∈ ((takeDoc kind construct?).run s).1, T.construct node c) ∧
      T.Finds uri source root ((takeDoc kind construct?).run s).2 := by
  constructor
  · rcases takeDoc_cases kind construct? s with hsame | ⟨construct, next, doc, rfl, hdoc, hnext⟩
    · rw [hsame]
      exact hconstruct
    · rw [hnext]
      rintro c ⟨⟩
      exact hT.withDoc hdoc (hconstruct construct rfl)
  · exact hs.beside (ample_still.quiet.takeDoc kind construct? s)
      (quiet_imports.takeDoc kind construct? s)

theorem finds_enter {node : SyntaxTree} (hnode : root.Holds node)
    (hs : T.Finds uri source root s) :
    (∀ c ∈ ((enter node).run s).1, T.construct node c) ∧
      T.Finds uri source root ((enter node).run s).2 := by
  unfold enter
  cases hrole : Role.ofKind? node.kind with
  | none =>
    have hnone : ∀ c ∈ (none : Option Construct), T.construct node c := fun _ hc => by cases hc
    exact finds_takeDoc hT node.kind hnone hs
  | some role =>
    have hstart : T.imports ((role.start node).run s).2.imports := by
      cases role with
      | namespaceStatement => exact hT.empty
      | _ => exact hs.reads.imports
    have hconstruct := hT.start hnode hrole s
    rcases hrun : (role.start node).run s with ⟨construct, s₁⟩
    have hs₁ := hs.still (ample_still.start role node s) hstart
    rw [hrun] at hs₁ hconstruct
    simp only
    rw [run_bind_eq hrun]
    refine finds_takeDoc hT node.kind ?_ hs₁
    rintro c ⟨⟩
    exact hconstruct

theorem finds_offer {node : SyntaxTree} {item : Item} (hitem : T.item node item) (place : Place)
    {around : Open} {nodes : List SyntaxTree} (haround : T.Around around nodes)
    (hplace : ∀ outer ∈ nodes.head?, place.Fits outer node)
    (hnodes : ∀ outer ∈ nodes, outer.Holds node) (hs : T.Finds uri source root s) :
    T.Around ((offer item place around).run s).1 nodes ∧
      T.Finds uri source root ((offer item place around).run s).2 := by
  induction haround generalizing place s with
  | nil => exact ⟨.nil, hs⟩
  | @cons construct? outer around nodes hconstruct haround ih =>
    obtain ⟨-, hrest⟩ := List.forall_mem_cons.1 hnodes
    have hdeeper : ∀ outer ∈ nodes.head?, Place.deeper.Fits outer node := fun outer houter =>
      hrest outer (List.mem_of_mem_head? houter)
    cases construct? with
    | none =>
      unfold offer
      split
      · exact ⟨.cons hconstruct haround, hs⟩
      · obtain ⟨hnext, hfinds⟩ := ih .deeper hdeeper hrest hs
        exact ⟨.cons hconstruct hnext, hfinds⟩
    | some construct =>
      have hself := finds_accept hT (hconstruct construct rfl) hitem (hplace outer rfl) hs
      unfold offer
      rcases hrun : (construct.accept item place).run s with ⟨⟨next, taken⟩, s₁⟩
      rw [hrun] at hself
      obtain ⟨hnext, hs₁⟩ := hself
      rw [run_bind_eq hrun]
      have hsome : ∀ c ∈ some next, T.construct outer c := by
        rintro c ⟨⟩
        exact hnext
      simp only
      split
      · exact ⟨.cons hsome haround, hs₁⟩
      · obtain ⟨houter, hfinds⟩ := ih .deeper hdeeper hrest hs₁
        exact ⟨.cons hsome houter, hfinds⟩

theorem finds_hand {node : SyntaxTree} {nodes : List SyntaxTree}
    (hpath : root.IsPath (node :: nodes)) {items : List Item}
    (hitems : ∀ item ∈ items, T.item node item) {around : Open} (haround : T.Around around nodes)
    (hs : T.Finds uri source root s) :
    T.Around ((hand items node.field? around).run s).1 nodes ∧
      T.Finds uri source root ((hand items node.field? around).run s).2 := by
  have hplace : ∀ outer ∈ nodes.head?, (Place.child node.field?).Fits outer node := by
    cases hpath with
    | root => nofun
    | child _ htree =>
      rintro outer ⟨⟩
      exact ⟨htree, rfl⟩
  unfold hand
  induction items generalizing around s with
  | nil => exact ⟨haround, hs⟩
  | cons item rest ih =>
    obtain ⟨hitem, hrest⟩ := List.forall_mem_cons.1 hitems
    rw [List.foldlM_cons]
    obtain ⟨hnext, hfinds⟩ := finds_offer hT hitem (.child node.field?) haround hplace
      hpath.holds_of_mem (hs.record hpath.holds hitem)
    exact ih hrest hnext hfinds

theorem finds_leave {node : SyntaxTree} {nodes : List SyntaxTree}
    (hpath : root.IsPath (node :: nodes)) {construct? : Option Construct}
    (hconstruct : ∀ c ∈ construct?, T.construct node c) {around : Open}
    (haround : T.Around around nodes) (hs : T.Finds uri source root s) :
    T.Around ((leave construct? node.field? node.range around).run s).1 nodes ∧
      T.Finds uri source root ((leave construct? node.field? node.range around).run s).2 := by
  cases construct? with
  | none => exact ⟨haround, hs⟩
  | some construct =>
    obtain ⟨hitems, hfinds⟩ := finds_finish hT (hconstruct construct rfl) hs
    exact finds_hand hT hpath hitems haround hfinds

end Lawful

/-! ## The walk -/

mutual

theorem finds_walk (hT : T.Lawful uri source root) : (tree : SyntaxTree) →
    (surroundings : Surroundings) → {around : Open} → {nodes : List SyntaxTree} →
    root.IsPath (tree :: nodes) → T.Around around nodes → {s : State} →
    T.Finds uri source root s →
    T.Around ((walk surroundings around tree).run s).1 nodes ∧
      T.Finds uri source root ((walk surroundings around tree).run s).2
  | .node kind field? range children, surroundings, around, nodes, hpath, haround, s, hs => by
    have hnoted : T.Finds uri source root (noteComment kind range s) :=
      hs.beside (ample_still.quiet.noteComment kind range s)
        (quiet_imports.noteComment kind range s)
    cases hatom : atom? kind field? range surroundings (noteComment kind range s) with
    | some item =>
      obtain ⟨doc?, hrun⟩ := run_walk_atom around children hatom
      have hitem : T.item (.node kind field? range children) item := hT.atom hnoted.reads hatom
      rw [hrun]
      exact finds_hand hT hpath (List.forall_mem_singleton.2 hitem) haround
        (hnoted.beside (ample_still.doc _ doc?) rfl)
    | none =>
      cases children with
      | nil =>
        rw [run_walk_leaf hatom]
        split
        · exact ⟨haround, hnoted⟩
        · exact finds_hand hT hpath
            (List.forall_mem_singleton.2 (hT.token (.node kind field? range []) hnoted.reads))
            haround hnoted
      | cons tree rest =>
        have henters := finds_enter hT hpath.holds hnoted
        rcases henter : (enter (.node kind field? range (tree :: rest))).run
          (noteComment kind range s) with ⟨construct?, s₁⟩
        rw [henter] at henters
        have hinside := finds_walkAll hT (tree :: rest) ⟨some kind, none⟩ hpath
          (List.Subset.refl _) (.cons henters.1 haround) henters.2
        rcases hwalk : (walkAll ⟨some kind, none⟩ (construct? :: around) (tree :: rest)).run s₁
          with ⟨next, s₂⟩
        rw [hwalk] at hinside
        obtain ⟨hnext, hs₂⟩ := hinside
        cases hnext with
        | cons hconstruct houter =>
          rw [run_walk_node hatom rfl henter hwalk]
          exact finds_leave hT hpath hconstruct houter hs₂

theorem finds_walkAll (hT : T.Lawful uri source root) : (trees : List SyntaxTree) →
    (surroundings : Surroundings) → {around : Open} → {parent : SyntaxTree} →
    {nodes : List SyntaxTree} → root.IsPath (parent :: nodes) → trees ⊆ parent.children →
    T.Around around (parent :: nodes) → {s : State} → T.Finds uri source root s →
    T.Around ((walkAll surroundings around trees).run s).1 (parent :: nodes) ∧
      T.Finds uri source root ((walkAll surroundings around trees).run s).2
  | [], surroundings, around, parent, nodes, hpath, hsub, haround, s, hs => by
    unfold walkAll
    exact ⟨haround, hs⟩
  | tree :: rest, surroundings, around, parent, nodes, hpath, hsub, haround, s, hs => by
    obtain ⟨htree, hrest⟩ := List.cons_subset.1 hsub
    obtain ⟨hnext, hs'⟩ := finds_walk hT tree surroundings (hpath.child htree) haround hs
    unfold walkAll
    rw [StateT.run_bind]
    exact finds_walkAll hT rest { surroundings with previousKind? := some tree.kind } hpath hrest
      hnext hs'

end

/-! ## Documents -/

theorem finds_ofTree (hT : T.Lawful uri source root) :
    T.Finds uri source root ((walk ⟨none, none⟩ [] root).run (.start uri source)).2 := by
  have hstart : T.Finds uri source root (.start uri source) :=
    ⟨⟨rfl, rfl, hT.empty⟩, List.forall_mem_nil _, List.forall_mem_nil _⟩
  exact (finds_walk hT root ⟨none, none⟩ .root .nil hstart).2

/-- Every declaration of a document has a node at which it was recorded. -/
theorem symbol_ofTree (hT : T.Lawful uri source root) {x : Symbol}
    (hx : x ∈ (Extraction.ofTree uri source root).symbols) :
    ∃ node, root.Holds node ∧ T.item node (.symbol x) :=
  (finds_ofTree hT).symbols x hx

/-- Every reference of a document has a node at which it was recorded. -/
theorem reference_ofTree (hT : T.Lawful uri source root) {r : Reference}
    (hr : r ∈ (Extraction.ofTree uri source root).references) :
    ∃ node value, root.Holds node ∧ T.item node (.reference r value) :=
  (finds_ofTree hT).references r hr

end Tracking
end Extract
end PhpIndex
