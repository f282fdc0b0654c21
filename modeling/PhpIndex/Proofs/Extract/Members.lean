import PhpIndex.Proofs.Extract.Balance
import PhpIndex.Proofs.Extract.Recording

/-!
# Members and their classes

A reading records declarations at the nodes of the tree. A member is recorded for the class whose
context is the innermost one; that is the class around the node, and by its one name it is recorded
itself when its node is left. The induction is on the tree: what a node declares belongs to a class
inside it, or is a member of the class around it under the name that this has in the end.
Main statements: `declares_walk`, `reading_balanced`.
-/
namespace PhpIndex

/-- A node with its number among the children of its parent. -/
structure Spot where
  index : Nat
  node : SyntaxTree

namespace SyntaxTree

/-- Whether the spots lead up to the root, innermost first. -/
inductive LeadsTo (root : SyntaxTree) : List Spot → Prop where
  | root : LeadsTo root [⟨0, root⟩]
  | child {index : Nat} {tree : SyntaxTree} {parent : Spot} {path : List Spot}
      (h : LeadsTo root (parent :: path)) (htree : parent.node.children[index]? = some tree) :
      LeadsTo root (⟨index, tree⟩ :: parent :: path)

mutual

/-- Whether the node and all nodes in it pass the test. -/
def all (p : SyntaxTree → Bool) : SyntaxTree → Bool
  | .node kind field? range children => p (.node kind field? range children) && allIn p children

def allIn (p : SyntaxTree → Bool) : List SyntaxTree → Bool
  | [] => true
  | tree :: rest => all p tree && allIn p rest

end

/-- Whether the node is no class or has one name at most. -/
def isNamedOnce (tree : SyntaxTree) : Bool :=
  !tree.isClassLike || decide (tree.children.countP isName ≤ 1)

end SyntaxTree

/-- A declaration with the node at which it was recorded and the nodes around that one, innermost
first. -/
structure Declaration where
  path : List Spot
  symbol : Symbol

namespace Declaration

/-- The innermost class at the node or around it, and the nodes around that. -/
def classPath (d : Declaration) : List Spot := d.path.dropWhile fun spot => !spot.node.isClassLike

/-- Whether the class around is one that has a name, and is declared at its own node under this
name. -/
def Attributed (found : List Declaration) (owner : String) (d : Declaration) : Prop :=
  ∃ spot outer c, d.classPath = spot :: outer ∧ spot.node.kind ≠ "anonymous_class" ∧
    spot.node.children.any SyntaxTree.isName = true ∧
    ⟨spot :: outer, .classLike c⟩ ∈ found ∧ c.name = owner

/-- Whether no class lies between the declaration and what the path leads to. -/
def Beneath (path : List Spot) (d : Declaration) : Prop :=
  ∃ inner : List Spot, d.path = inner ++ path ∧ ∀ spot ∈ inner, spot.node.isClassLike = false

theorem Attributed.mono {found found' : List Declaration} {owner : String} {d : Declaration}
    (h : d.Attributed found owner) (hle : found ⊆ found') : d.Attributed found' owner := by
  obtain ⟨spot, outer, c, hpath, hkind, hname, hmem, howner⟩ := h
  exact ⟨spot, outer, c, hpath, hkind, hname, hle hmem, howner⟩

end Declaration

namespace Extract

def Item.symbol? : Item → Option Symbol
  | .symbol s => some s
  | _ => none

def declared (path : List Spot) (items : List Item) : List Declaration :=
  (items.filterMap Item.symbol?).map fun s => ⟨path, s⟩

mutual

/-- The declarations that are recorded while a tree is read, each with where it is. -/
def declarations (path : List Spot) (index : Nat) (surroundings : Surroundings) (around : Open)
    (s : State) : SyntaxTree → List Declaration
  | .node kind field? range children =>
    let s := noteComment kind range s
    if (atom? kind field? range surroundings s).isSome || children.isEmpty then []
    else
      let here : List Spot := ⟨index, .node kind field? range children⟩ :: path
      let (construct?, s) := (enter (.node kind field? range children)).run s
      let (next, s') := (walkAll ⟨some kind, none⟩ (construct? :: around) children).run s
      declarationsIn here 0 ⟨some kind, none⟩ (construct? :: around) s children ++
        declared here (itemsLeft range s' next)

def declarationsIn (path : List Spot) (index : Nat) (surroundings : Surroundings) (around : Open)
    (s : State) : List SyntaxTree → List Declaration
  | [] => []
  | tree :: rest =>
    let (next, s') := (walk surroundings around tree).run s
    declarations path index surroundings around s tree ++
      declarationsIn path (index + 1) { surroundings with previousKind? := some tree.kind } next s'
        rest

end

/-! ## Where declarations are -/

theorem path_of_mem_declared {path : List Spot} {items : List Item} {d : Declaration}
    (h : d ∈ declared path items) : d.path = path ∧ .symbol d.symbol ∈ items := by
  obtain ⟨x, hx, rfl⟩ := List.mem_map.1 h
  obtain ⟨item, hitem, hsymbol⟩ := List.mem_filterMap.1 hx
  cases item with
  | symbol s => exact ⟨rfl, Option.some.inj hsymbol ▸ hitem⟩
  | _ => cases hsymbol

theorem map_symbol_declared (path : List Spot) (items : List Item) :
    (declared path items).map Declaration.symbol = items.filterMap Item.symbol? := by
  rw [declared, List.map_map]
  exact List.map_id _

mutual

theorem leadsTo_declarations {root : SyntaxTree} : (tree : SyntaxTree) → (path : List Spot) →
    (index : Nat) → root.LeadsTo (⟨index, tree⟩ :: path) → (surroundings : Surroundings) →
    (around : Open) → (s : State) →
    ∀ d ∈ declarations path index surroundings around s tree, root.LeadsTo d.path
  | .node kind field? range children, path, index, hpath, surroundings, around, s => by
    unfold declarations
    simp only
    split
    · exact List.forall_mem_nil _
    · refine List.forall_mem_append.2 ⟨?_, fun d hd => (path_of_mem_declared hd).1 ▸ hpath⟩
      exact leadsTo_declarationsIn children _ path hpath 0 List.drop_zero.symm _ _ _

theorem leadsTo_declarationsIn {root : SyntaxTree} : (trees : List SyntaxTree) →
    (parent : Spot) → (path : List Spot) → root.LeadsTo (parent :: path) → (index : Nat) →
    trees = parent.node.children.drop index → (surroundings : Surroundings) → (around : Open) →
    (s : State) → ∀ d ∈ declarationsIn (parent :: path) index surroundings around s trees,
      root.LeadsTo d.path
  | [], parent, path, hpath, index, htrees, surroundings, around, s => by
    unfold declarationsIn
    exact List.forall_mem_nil _
  | tree :: rest, parent, path, hpath, index, htrees, surroundings, around, s => by
    have htree : parent.node.children[index]? = some tree := by
      rw [← List.head?_drop, ← htrees]
      rfl
    have hrest : rest = parent.node.children.drop (index + 1) := by
      rw [← List.tail_drop, ← htrees]
      rfl
    unfold declarationsIn
    exact List.forall_mem_append.2 ⟨leadsTo_declarations tree _ index (hpath.child htree) _ _ _,
      leadsTo_declarationsIn rest parent path hpath (index + 1) hrest _ _ _⟩

end

/-! ## What is recorded -/

theorem symbols_record (s : State) (item : Item) :
    (s.record item).symbols = s.symbols ++ item.symbol?.toList := by
  cases item with
  | reference r value =>
    unfold State.record
    simp only
    split <;> exact (List.append_nil _).symm
  | symbol x => rfl
  | _ => exact (List.append_nil _).symm

theorem symbols_hand (items : List Item) (field? : Option String) (around : Open) (s : State) :
    ((hand items field? around).run s).2.symbols =
      s.symbols ++ items.filterMap Item.symbol? := by
  unfold hand
  induction items generalizing around s with
  | nil => exact (List.append_nil _).symm
  | cons item rest ih =>
    have hoffer := (ample_still.offer item (.child field?) around (s.record item)).symbols
    rw [symbols_record] at hoffer
    rw [List.foldlM_cons]
    refine (ih _ _).trans ?_
    refine (congrArg (· ++ _) hoffer).trans ?_
    rw [List.append_assoc]
    cases hsymbol : item.symbol? with
    | none => rw [List.filterMap_cons_none hsymbol]; rfl
    | some x => rw [List.filterMap_cons_some hsymbol]; rfl

/-! ## What a node turns into -/

/-- Whether the item is no name and declares no member but one of this class. -/
def Item.For (owner? : Option String) : Item → Prop
  | .name _ _ => False
  | .symbol s => s.scope? = none ∨ s.scope? = owner?
  | _ => True

section
variable {owner? : Option String}

theorem Item.For.isName {item : Item} (h : item.For owner?) : item.isName = false := by
  cases item with
  | name text range => exact h.elim
  | _ => rfl

/-- The sorts of items that are names or declare something. -/
def declaringSorts : List ItemSort := [.name, .symbol]

theorem Item.for_of_sort {item : Item} (h : item.sort ∉ declaringSorts) : item.For owner? := by
  cases item with
  | name text range => simp [sort, declaringSorts] at h
  | symbol x => simp [sort, declaringSorts] at h
  | _ => trivial

theorem Item.For.of_none {item : Item} (h : item.For none) : item.For owner? := by
  cases item with
  | symbol x => exact .inl (h.elim id id)
  | name text range => exact h.elim
  | _ => trivial

theorem Callable.for_finish (c : Callable) (range : Range) (s : State) :
    ∀ item ∈ ((c.finish range).run s).1, item.For s.memberScope? := by
  have hclose : s.closeScope.memberScope? = s.memberScope? := by
    unfold State.closeScope
    split <;> rfl
  simp only [finish, StateT.run_bind, StateT.run_get, StateT.run_modify, pure_bind]
  split
  · exact List.forall_mem_singleton.2 trivial
  · exact List.forall_mem_singleton.2 trivial
  · exact List.forall_mem_nil _
  · exact List.forall_mem_singleton.2 (.inl rfl)
  · split
    · exact List.forall_mem_nil _
    next hscope => exact List.forall_mem_singleton.2 (.inr (hscope.symm.trans hclose))

theorem ClassBody.for_finish (c : ClassBody) (range : Range) (s : State) :
    ∀ item ∈ ((c.finish range).run s).1, item.For owner? := by
  simp only [finish, StateT.run_bind, StateT.run_get, StateT.run_set, pure_bind]
  split
  · exact List.forall_mem_singleton.2 trivial
  · exact List.forall_mem_nil _
  · exact List.forall_mem_singleton.2 (.inl rfl)

theorem EnumCase.for_finish (e : EnumCase) (range : Range) (s : State) :
    ∀ item ∈ e.finish range s, item.For s.memberScope? := by
  unfold finish
  split
  next hscope => exact List.forall_mem_singleton.2 (.inr hscope.symm)
  · exact List.forall_mem_nil _

theorem ParameterEntry.for_finish (p : ParameterEntry) (s : State) :
    ∀ item ∈ p.finish s, item.For s.memberScope? := by
  unfold finish
  split
  · exact List.forall_mem_nil _
  · simp only
    split
    · exact List.forall_mem_singleton.2 trivial
    next hscope =>
      split
      · exact List.forall_mem_cons.2 ⟨.inr hscope.symm, List.forall_mem_singleton.2 trivial⟩
      · exact List.forall_mem_singleton.2 trivial

theorem PropertyGroup.for_finish (g : PropertyGroup) (s : State) :
    ∀ item ∈ g.finish s, item.For s.memberScope? := by
  unfold finish
  split
  · exact List.forall_mem_nil _
  next hscope => exact List.forall_mem_map.2 fun _ _ => .inr hscope.symm

theorem ConstantGroup.for_finish (g : ConstantGroup) (s : State) :
    ∀ item ∈ g.finish s, item.For s.memberScope? := by
  unfold finish
  split
  · exact List.forall_mem_nil _
  · split
    next hscope => exact List.forall_mem_map.2 fun _ _ => .inr hscope.symm
    · exact List.forall_mem_map.2 fun _ _ => .inl rfl

theorem FunctionCall.for_finish (c : FunctionCall) (range : Range) (s : State) :
    ∀ item ∈ c.finish range s, item.For owner? := by
  unfold finish
  split
  · exact List.forall_mem_singleton.2 trivial
  · split
    · exact List.forall_mem_cons.2 ⟨.inl rfl, List.forall_mem_singleton.2 trivial⟩
    · refine List.forall_mem_append.2 ⟨?_, List.forall_mem_singleton.2 trivial⟩
      split
      · split
        · exact List.forall_mem_nil _
        · exact List.forall_mem_singleton.2 trivial
      · exact List.forall_mem_nil _

theorem MemberAccess.for_finish {m : MemberAccess}
    (hrefs : ∀ item ∈ m.scopeReference?, item.For none) (range : Range) (s : State) :
    ∀ item ∈ m.finish range s, item.For owner? := by
  refine List.forall_mem_append.2 ⟨fun item hitem => ?_, ?_⟩
  · exact (hrefs item (Option.mem_toList.1 hitem)).of_none
  · split
    · refine List.forall_mem_singleton.2 ?_
      unfold unnamed
      split <;> trivial
    · exact List.forall_mem_append.2
        ⟨List.forall_mem_map.2 fun _ _ => trivial, List.forall_mem_singleton.2 trivial⟩

end

/-- What a construct turns into declares no members but those of the class around. -/
theorem Construct.for_finish {construct : Construct} (h : construct.Holding (Item.For none))
    (range : Range) (s : State) :
    ∀ item ∈ ((construct.finish range).run s).1, item.For s.memberScope? := by
  have hplain (hholding : construct.Holding fun item => item.sort = .reference)
      (hyields : ∀ sort ∈ construct.yields, sort ∉ declaringSorts) :
      ∀ item ∈ ((construct.finish range).run s).1, item.For s.memberScope? :=
    fun item hitem => Item.for_of_sort (hyields _ (sort_finish hholding range s item hitem))
  cases construct with
  | classBody c => exact c.for_finish range s
  | enumCase e => exact e.for_finish range s
  | callable c => exact c.for_finish range s
  | parameter p => exact p.for_finish s
  | typeHint t =>
    exact List.forall_mem_append.2
      ⟨fun item hitem => (h item hitem).of_none, List.forall_mem_singleton.2 trivial⟩
  | properties g => exact g.for_finish s
  | constants g => exact g.for_finish s
  | call c => exact c.for_finish range s
  | member m => exact MemberAccess.for_finish h range s
  | _ => exact hplain trivial (by simp [yields, declaringSorts])

/-! ## The class around -/

/-- A member is recorded under a name that its class has by then. -/
theorem memberScope?_of_class {construct? : Option Construct} {around : Open} {s : State}
    (hs : s.frame.contexts = Open.contexts (construct? :: around)) {sort? : Option ClassSort}
    {name? : Option String} (hmark : markOf construct? = .class sort? name?) {owner : String}
    (h : s.memberScope? = some owner) : sort?.isSome = true ∧ name? = some owner := by
  have hcontexts : s.frame.contexts = (name?.getD "", sort?.isNone) :: around.contexts := by
    rw [hs, Open.contexts, Open.marks_cons, hmark]
    rfl
  rw [s.memberScope?_eq, hcontexts] at h
  cases sort? with
  | none => simp at h
  | some sort =>
    cases name? with
    | none => simp at h
    | some name =>
      simp at h
      exact ⟨rfl, congrArg some h.2⟩

/-- Whether the nodes give the innermost class one name at most, the one that it has included. -/
def Settled (around : Open) (trees : List SyntaxTree) : Prop := ∀ sort? name? outer,
  around.marks = .class sort? name? :: outer →
    trees.countP SyntaxTree.isName + name?.toList.length ≤ 1

/-- Where a class has its name already, the class around stays the same one. -/
theorem Settled.memberScope? {around next : Open} {trees : List SyntaxTree}
    (h : Settled around trees) {s s' : State} (hs : s.frame.contexts = around.contexts)
    (hs' : s'.frame.contexts = next.contexts)
    (hbecomes : around.Becomes (trees.any SyntaxTree.isName) next) {owner : String}
    (howner : s.memberScope? = some owner) : s'.memberScope? = some owner := by
  rcases hbecomes with hmarks | ⟨hnamed, sort, name?, name, outer, haround, -⟩
  · rw [State.memberScope?_eq, hs', Open.contexts, hmarks, ← Open.contexts, ← hs,
      ← State.memberScope?_eq, howner]
  · have hcount := h _ _ _ haround
    have hpos : 0 < trees.countP SyntaxTree.isName := by
      rw [List.countP_pos_iff]
      simpa using hnamed
    cases around with
    | nil => cases haround
    | cons construct? around =>
      obtain ⟨hmark, -⟩ := List.cons.inj haround
      obtain ⟨-, rfl⟩ := memberScope?_of_class hs hmark howner
      simp only [Option.toList_some, List.length_singleton] at hcount
      omega

theorem Settled.next {around next : Open} {tree : SyntaxTree} {rest : List SyntaxTree}
    (h : Settled around (tree :: rest)) (hbecomes : around.Becomes tree.isName next) :
    Settled next rest := by
  intro sort? name? outer hnext
  rcases hbecomes with hmarks | ⟨hnamed, sort, old?, name, outer', haround, hnext'⟩
  · have hcount := h sort? name? outer (by rw [← hmarks, hnext])
    rw [List.countP_cons] at hcount
    omega
  · have hcount := h _ _ _ haround
    rw [List.countP_cons, if_pos hnamed] at hcount
    rw [hnext'] at hnext
    obtain ⟨⟨⟩, -⟩ := List.cons.inj hnext
    simp only [Option.toList_some, List.length_singleton]
    omega

/-- A class has no name when its first child is read. -/
theorem settled_enter {tree : SyntaxTree} (hnamed : tree.isNamedOnce = true)
    {construct? : Option Construct} (hmark : markOf construct? = tree.mark) (around : Open) :
    Settled (construct? :: around) tree.children := by
  intro sort? name? outer haround
  obtain ⟨hclass, -⟩ := List.cons.inj haround
  rw [hmark] at hclass
  have hclassLike : tree.isClassLike = true := by rw [← isClass_mark, hclass]; rfl
  obtain ⟨_, hentered, -⟩ := mark_of_isClassLike hclassLike
  rw [hentered] at hclass
  cases hclass
  simpa [SyntaxTree.isNamedOnce, hclassLike] using hnamed

/-! ## Readings -/

variable {functions : List SyntaxTree}

/-- What a reading of nodes under a path has declared: each member belongs to a class inside, or
to the one around under the name that this has behind the nodes. -/
structure Declares (path : List Spot) (s : State) (found : List Declaration) (next : Open)
    (s' : State) : Prop where
  holding : next.Holding (Item.For none)
  symbols : s'.symbols = s.symbols ++ found.map Declaration.symbol
  owned : ∀ d ∈ found, ∀ owner, d.symbol.scope? = some owner →
    d.Attributed found owner ∨ d.Beneath path ∧ s'.memberScope? = some owner

theorem Declares.of_symbols {path : List Spot} {s s' s'' : State} {found : List Declaration}
    {next : Open} (h : Declares path s' found next s'') (hs : s'.symbols = s.symbols) :
    Declares path s found next s'' :=
  ⟨h.holding, hs ▸ h.symbols, h.owned⟩

theorem holding_hand_items (items : List Item) (field? : Option String) {around : Open}
    (h : around.Holding (Item.For none)) (s : State) :
    ((hand items field? around).run s).1.Holding (Item.For none) :=
  Open.holding_hand (fun _ _ _ => trivial) items field? h s

/-- Items that are no declarations. -/
theorem Declares.of_hand {items : List Item} (hitems : ∀ item ∈ items, item.symbol? = none)
    (path : List Spot) (field? : Option String) {around : Open}
    (h : around.Holding (Item.For none)) {s s' : State} (hs : s'.symbols = s.symbols) :
    Declares path s [] ((hand items field? around).run s').1
      ((hand items field? around).run s').2 where
  holding := holding_hand_items items field? h s'
  symbols := by
    rw [symbols_hand, hs, List.filterMap_eq_nil_iff.2 hitems]
    rfl
  owned := List.forall_mem_nil _

/-- What a class turns into is its declaration, if it has a name. -/
theorem itemsLeft_of_class {construct? : Option Construct} {sort : ClassSort} {name : String}
    (h : markOf construct? = .class (some sort) (some name)) (range : Range) (s : State)
    (around : Open) : ∃ c : ClassDecl, c.name = name ∧
      itemsLeft range s (construct? :: around) = [.symbol (.classLike c)] := by
  cases construct? with
  | none => cases h
  | some construct =>
    cases construct with
    | classBody c =>
      obtain ⟨hsort, hname⟩ := Mark.class.inj h
      simp only [itemsLeft, Construct.finish, ClassBody.finish, StateT.run_bind, StateT.run_get,
        StateT.run_set, pure_bind]
      rw [hsort, hname]
      exact ⟨_, rfl, rfl⟩
    | _ => cases h

theorem for_itemsLeft {around : Open} (h : around.Holding (Item.For none)) (range : Range)
    (s : State) : ∀ item ∈ itemsLeft range s around, item.For s.memberScope? := by
  cases around with
  | nil => exact List.forall_mem_nil _
  | cons construct? outer =>
    cases construct? with
    | none => exact List.forall_mem_nil _
    | some construct => exact Construct.for_finish ((List.forall_mem_cons.1 h).1 _ rfl) range s

/-- What a node turns into declares members of the class around only, and none if it is a class
itself. -/
theorem for_itemsLeft_of_isClass {construct? : Option Construct}
    (h : (markOf construct?).isClass = true) (range : Range) (s : State) (around : Open) :
    ∀ item ∈ itemsLeft range s (construct? :: around), item.For none := by
  cases construct? with
  | none => cases h
  | some construct =>
    cases construct with
    | classBody c => exact c.for_finish range s
    | _ => cases h

theorem symbols_leave (construct? : Option Construct) (field? : Option String) (range : Range)
    (around : Open) (s : State) :
    ((leave construct? field? range around).run s).2.symbols =
      s.symbols ++ (itemsLeft range s (construct? :: around)).filterMap Item.symbol? := by
  cases construct? with
  | none => exact (List.append_nil _).symm
  | some construct =>
    have hfinish := (ample_still.finish construct range s).symbols
    unfold leave
    simp only [itemsLeft]
    rcases hrun : (construct.finish range).run s with ⟨items, s'⟩
    rw [hrun] at hfinish
    rw [run_bind_eq hrun, symbols_hand]
    exact congrArg (· ++ _) hfinish

theorem holding_leave (construct? : Option Construct) (field? : Option String) (range : Range)
    {around : Open} (h : around.Holding (Item.For none)) (s : State) :
    ((leave construct? field? range around).run s).1.Holding (Item.For none) := by
  cases construct? with
  | none => exact h
  | some construct => exact holding_hand_items _ field? h _

/-- Leaving a node that is no class leaves the class around as it was. -/
theorem memberScope?_leave {construct? : Option Construct} {around : Open}
    (h : Open.Holding (Item.For none) (construct? :: around)) {s : State}
    (hs : s.frame.contexts = Open.contexts (construct? :: around))
    (hclass : (markOf construct?).isClass = false) (field? : Option String) (range : Range) :
    ((leave construct? field? range around).run s).2.memberScope? = s.memberScope? := by
  have hnames : (itemsLeft range s (construct? :: around)).any Item.isName = false :=
    List.any_eq_false.2 fun item hitem => by simp [(for_itemsLeft h range s item hitem).isName]
  obtain ⟨hbecomes, hframe⟩ := frame_leave construct? field? range hs
  rw [hnames, Bool.and_false] at hbecomes
  have hmarks : Open.marks ((leave construct? field? range around).run s).1 = around.marks :=
    hbecomes.resolve_right fun h => by cases h.1
  have hcontext : (markOf construct?).context? = none := by
    cases hmark : markOf construct? with
    | «class» sort? name? => rw [hmark] at hclass; cases hclass
    | _ => rfl
  have hcontexts : s.frame.contexts = around.contexts := by
    rw [hs, Open.contexts, Open.marks_cons, List.filterMap_cons_none hcontext]
    rfl
  rw [State.memberScope?_eq, State.memberScope?_eq, hframe, hcontexts]
  simp only [Open.contexts, hmarks]

/-- A member that was declared in a class, right below it, belongs to this class. -/
theorem attributed_of_class {tree : SyntaxTree} (hclass : tree.isClassLike = true)
    {construct? next? : Option Construct} (hmark : markOf construct? = tree.mark)
    {around outer : Open} {s s' : State}
    (hcourse : Course (tree.children.any SyntaxTree.isName) functions (construct? :: around) s
      (next? :: outer) s') {index : Nat} {path : List Spot} {d : Declaration}
    (hd : d.Beneath (⟨index, tree⟩ :: path)) {owner : String}
    (howner : s'.memberScope? = some owner) :
    d.Attributed (declared (⟨index, tree⟩ :: path) (itemsLeft tree.range s' (next? :: outer)))
      owner := by
  obtain ⟨sort?, htree, hanonymous⟩ := mark_of_isClassLike hclass
  rw [htree] at hmark
  obtain ⟨_, _, ⟨⟩, -, hnext⟩ := hcourse.becomes.exists_cons
  rcases hnext with hnext | ⟨hnamed, sort, old?, name, hold, hnext⟩
  · -- The class has not got its name yet, so nothing is declared for it.
    obtain ⟨-, hname⟩ := memberScope?_of_class hcourse.contexts (hnext.trans hmark) howner
    cases hname
  · obtain ⟨-, hname⟩ := memberScope?_of_class hcourse.contexts hnext howner
    cases hname
    rw [hold] at hmark
    cases hmark
    obtain ⟨c, hc, hitems⟩ := itemsLeft_of_class hnext tree.range s' outer
    obtain ⟨inner, hpath, hinner⟩ := hd
    refine ⟨⟨index, tree⟩, path, c, ?_, fun hkind => ?_, hnamed, ?_, hc⟩
    · have hinner' : ∀ spot ∈ inner, (!spot.node.isClassLike) = true := by simpa using hinner
      rw [Declaration.classPath, hpath, List.dropWhile_append_of_pos hinner',
        List.dropWhile_cons_of_neg (by simp [hclass])]
    · cases hanonymous.2 hkind
    · rw [hitems]
      exact List.mem_singleton.2 rfl

/-- A node that opened a construct declares what lies in it and what it turns into. -/
theorem declares_node {tree : SyntaxTree} {around : Open} {s s₁ : State}
    {construct? : Option Construct} (henter : (enter tree).run s = (construct?, s₁)) {next : Open}
    {s₂ : State}
    (hcourse : Course (tree.children.any SyntaxTree.isName) functions (construct? :: around) s₁
      next s₂) {index : Nat} {path : List Spot} {found : List Declaration}
    (hinside : Declares (⟨index, tree⟩ :: path) s₁ found next s₂) :
    ∃ (next? : Option Construct) (outer : Open), next = next? :: outer ∧
      Declares path s
        (found ++ declared (⟨index, tree⟩ :: path) (itemsLeft tree.range s₂ next))
        ((leave next? tree.field? tree.range outer).run s₂).1
        ((leave next? tree.field? tree.range outer).run s₂).2 := by
  obtain ⟨hmark, -⟩ := frame_enter tree s
  have hsymbols := (ample_still.enter tree s).symbols
  rw [henter] at hmark hsymbols
  simp only at hmark hsymbols
  obtain ⟨next?, outer, rfl, -, hnext⟩ := hcourse.becomes.exists_cons
  obtain ⟨hself, houter⟩ := List.forall_mem_cons.1 hinside.holding
  have hnextClass : (markOf next?).isClass = tree.isClassLike := by
    rw [← isClass_mark, ← hmark]
    rcases hnext with hnext | ⟨-, sort, name?, name, hold, hnext⟩
    · rw [hnext]
    · rw [hold, hnext]
      rfl
  refine ⟨next?, outer, rfl, holding_leave next? tree.field? tree.range houter s₂, ?_, ?_⟩
  case refine_1 =>
    rw [symbols_leave, hinside.symbols, hsymbols, List.map_append, map_symbol_declared,
      List.append_assoc]
  case refine_2 =>
    intro d hd owner hscope
    cases hclass : tree.isClassLike with
    | true =>
      rw [hclass] at hnextClass
      refine .inl ?_
      rcases List.mem_append.1 hd with hd | hd
      · rcases hinside.owned d hd owner hscope with hattributed | ⟨hbeneath, howner⟩
        · exact hattributed.mono (List.subset_append_left _ _)
        · exact (attributed_of_class hclass hmark hcourse hbeneath howner).mono
            (List.subset_append_right _ _)
      · have hitem := for_itemsLeft_of_isClass hnextClass _ _ _ _ (path_of_mem_declared hd).2
        rw [Item.For, or_self, hscope] at hitem
        cases hitem
    | false =>
      rw [hclass] at hnextClass
      have howner := memberScope?_leave hinside.holding hcourse.contexts hnextClass tree.field?
        tree.range
      rcases List.mem_append.1 hd with hd | hd
      · rcases hinside.owned d hd owner hscope with hattributed | ⟨⟨inner, hpath, hinner⟩, hmember⟩
        · exact .inl (hattributed.mono (List.subset_append_left _ _))
        · refine .inr ⟨⟨inner ++ [⟨index, tree⟩], ?_, ?_⟩, howner.trans hmember⟩
          · rw [hpath, List.append_assoc]
            rfl
          · exact List.forall_mem_append.2 ⟨hinner, List.forall_mem_singleton.2 hclass⟩
      · obtain ⟨hpath, hitem⟩ := path_of_mem_declared hd
        have hmember := (for_itemsLeft hinside.holding _ _ _ hitem).resolve_left
          (by rw [hscope]; exact Option.some_ne_none owner)
        refine .inr ⟨⟨[⟨index, tree⟩], hpath, List.forall_mem_singleton.2 hclass⟩, ?_⟩
        rw [howner, ← hmember, hscope]

theorem symbol?_of_atom {kind : String} {field? : Option String} {range : Range}
    {surroundings : Surroundings} {s : State} {item : Item}
    (h : atom? kind field? range surroundings s = some item) : item.symbol? = none := by
  have hname : (nameItem surroundings field? range s).symbol? = none := by
    unfold nameItem
    simp only
    split
    · rfl
    · split <;> rfl
  unfold atom? at h
  simp only at h
  split at h
  · cases h
    exact hname
  · split at h
    · split at h <;> cases h <;> rfl
    · split at h
      · cases h; rfl
      · split at h
        · cases h; rfl
        · split at h
          · cases h; rfl
          · split at h
            · obtain ⟨word, -, rfl⟩ := Option.map_eq_some_iff.1 h
              rfl
            · split at h
              · cases h; rfl
              · obtain ⟨type, -, rfl⟩ := Option.map_eq_some_iff.1 h
                rfl

mutual

theorem declares_walk : (tree : SyntaxTree) → tree.all SyntaxTree.isNamedOnce = true →
    (surroundings : Surroundings) → {around : Open} → around.Holding (Item.For none) →
    (path : List Spot) → (index : Nat) → {s : State} → s.frame.contexts = around.contexts →
    Declares path s (declarations path index surroundings around s tree)
      ((walk surroundings around tree).run s).1 ((walk surroundings around tree).run s).2
  | .node kind field? range children, hnamed, surroundings, around, haround, path, index, s,
      hs => by
    rw [SyntaxTree.all, Bool.and_eq_true] at hnamed
    obtain ⟨hnode, hchildren⟩ := hnamed
    have hnoted : (noteComment kind range s).frame = s.frame :=
      small_frame.quiet.noteComment kind range s
    have hsymbols := (ample_still.quiet.noteComment kind range s).symbols
    have hs' : (noteComment kind range s).frame.contexts = around.contexts := by rw [hnoted, hs]
    unfold declarations
    cases hatom : atom? kind field? range surroundings (noteComment kind range s) with
    | some item =>
      obtain ⟨doc?, hrun⟩ := run_walk_atom around children hatom
      rw [hrun]
      simp only [hatom, Option.isSome_some, Bool.true_or, if_true]
      exact .of_hand (List.forall_mem_singleton.2 (symbol?_of_atom hatom)) path field? haround
        hsymbols
    | none =>
      cases children with
      | nil =>
        rw [run_walk_leaf hatom]
        simp only [List.isEmpty_nil, Bool.or_true, if_true]
        split
        · exact ⟨haround, hsymbols.trans (List.append_nil _).symm, List.forall_mem_nil _⟩
        · exact .of_hand (List.forall_mem_singleton.2 rfl) path field? haround hsymbols
      | cons tree rest =>
        rcases henter : (enter (.node kind field? range (tree :: rest))).run
          (noteComment kind range s) with ⟨construct?, s₁⟩
        rcases hwalk : (walkAll ⟨some kind, none⟩ (construct? :: around) (tree :: rest)).run s₁
          with ⟨next, s₂⟩
        obtain ⟨hmark, -⟩ := frame_enter (.node kind field? range (tree :: rest))
          (noteComment kind range s)
        have hs₁ := contexts_enter (.node kind field? range (tree :: rest)) hs'
        have hconstruct := holding_enter (P := Item.For none)
          (.node kind field? range (tree :: rest)) (noteComment kind range s)
        rw [henter] at hmark hs₁ hconstruct
        have hcourse := course_walkAll (tree :: rest) ⟨some kind, none⟩ hs₁
        have hinside := declares_walkAll (tree :: rest) hchildren ⟨some kind, none⟩
          (List.forall_mem_cons.2 ⟨hconstruct, haround⟩) (settled_enter hnode hmark around)
          (⟨index, .node kind field? range (tree :: rest)⟩ :: path) 0 hs₁
        rw [hwalk] at hcourse hinside
        obtain ⟨next?, outer, rfl, hdeclares⟩ := declares_node henter hcourse hinside
        rw [run_walk_node hatom rfl henter hwalk]
        simp only [hatom, Option.isSome_none, List.isEmpty_cons, Bool.or_self, Bool.false_eq_true,
          if_false, henter, hwalk]
        exact hdeclares.of_symbols hsymbols

theorem declares_walkAll : (trees : List SyntaxTree) →
    SyntaxTree.allIn SyntaxTree.isNamedOnce trees = true → (surroundings : Surroundings) →
    {around : Open} → around.Holding (Item.For none) → Settled around trees →
    (path : List Spot) → (index : Nat) → {s : State} → s.frame.contexts = around.contexts →
    Declares path s (declarationsIn path index surroundings around s trees)
      ((walkAll surroundings around trees).run s).1 ((walkAll surroundings around trees).run s).2
  | [], hnamed, surroundings, around, haround, hsettled, path, index, s, hs => by
    unfold walkAll declarationsIn
    exact ⟨haround, (List.append_nil _).symm, List.forall_mem_nil _⟩
  | tree :: rest, hnamed, surroundings, around, haround, hsettled, path, index, s, hs => by
    rw [SyntaxTree.allIn, Bool.and_eq_true] at hnamed
    obtain ⟨htree, hrest⟩ := hnamed
    have hcourse := course_walk tree surroundings hs
    have hfirst := declares_walk tree htree surroundings haround path index hs
    unfold walkAll declarationsIn
    rcases hwalk : (walk surroundings around tree).run s with ⟨next, s'⟩
    rw [hwalk] at hcourse hfirst
    have hsettled' := hsettled.next hcourse.becomes
    have hcourse' := course_walkAll rest { surroundings with previousKind? := some tree.kind }
      hcourse.contexts
    have hsecond := declares_walkAll rest hrest
      { surroundings with previousKind? := some tree.kind } hfirst.holding hsettled' path
      (index + 1) hcourse.contexts
    rw [run_bind_eq hwalk]
    simp only
    refine ⟨hsecond.holding, ?_, ?_⟩
    · rw [hsecond.symbols, hfirst.symbols, List.map_append, List.append_assoc]
    · intro d hd owner hscope
      rcases List.mem_append.1 hd with hd | hd
      · refine (hfirst.owned d hd owner hscope).imp
          (fun h => h.mono (List.subset_append_left _ _)) fun ⟨hbeneath, howner⟩ => ⟨hbeneath, ?_⟩
        exact hsettled'.memberScope? hcourse.contexts hcourse'.contexts hcourse'.becomes howner
      · exact (hsecond.owned d hd owner hscope).imp_left
          fun h => h.mono (List.subset_append_right _ _)

end

end Extract

/-! ## Documents -/

/-- The declarations of a document, in order, each with where it is. -/
def Extraction.declarations (uri source : String) (tree : SyntaxTree) : List Declaration :=
  Extract.declarations [] 0 ⟨none, none⟩ [] (.start uri source) tree

/-- When a document was read no function or class is left open. Its scopes are those of the
functions that were entered, and each member belongs to the innermost class around it, which is
declared under the name that the member bears as its owner. -/
theorem reading_balanced (uri source : String) {tree : SyntaxTree}
    (hnamed : tree.all SyntaxTree.isNamedOnce = true) :
    let read := (Extract.walk ⟨none, none⟩ [] tree).run (.start uri source)
    let extraction := Extraction.ofTree uri source tree
    let found := Extraction.declarations uri source tree
    (read.1 = [] ∧ read.2.classes = [] ∧ read.2.scopes = []) ∧
      extraction.scopes.map VariableScope.location =
        (tree.enteredFunctions source).map (fun n => .of uri n.range) ∧
      extraction.symbols = found.map Declaration.symbol ∧
      ∀ d ∈ found, tree.LeadsTo d.path ∧
        ∀ owner, d.symbol.scope? = some owner → d.Attributed found owner := by
  intro read extraction found
  have hcourse : Extract.Course tree.isName (tree.enteredFunctions source) [] (.start uri source)
      read.1 read.2 := Extract.course_walk (s := .start uri source) tree ⟨none, none⟩ rfl
  have hdeclares : Extract.Declares [] (.start uri source) found read.1 read.2 :=
    Extract.declares_walk tree hnamed ⟨none, none⟩ (List.forall_mem_nil _) [] 0 rfl
  have hopen : read.1 = [] := hcourse.becomes.eq_nil
  have hcontexts : read.2.frame.contexts = [] := by
    rw [hcourse.contexts, hopen]
    rfl
  refine ⟨⟨hopen, List.map_eq_nil_iff.1 hcontexts, ?_⟩, ?_, hdeclares.symbols, fun d hd =>
    ⟨Extract.leadsTo_declarations tree [] 0 .root _ _ _ d hd, fun owner howner => ?_⟩⟩
  · exact List.map_eq_nil_iff.1 (congrArg Extract.Frame.scopes hcourse.frame)
  · exact congrArg Extract.Frame.finished hcourse.frame
  · refine (hdeclares.owned d hd owner howner).resolve_right fun ⟨_, hmember⟩ => ?_
    rw [Extract.State.memberScope?_eq, hcontexts] at hmember
    cases hmember

/-- A class with a constant and a method. -/
theorem reading_balanced_class :
    let source := "<?php class A{const C=1;function f(){}}"
    let tree : SyntaxTree := .node "program" none ⟨0, 39⟩
      [.node "php_tag" none ⟨0, 5⟩ [],
       .node "class_declaration" none ⟨6, 39⟩
        [.node "class" none ⟨6, 11⟩ [],
         .node "name" (some "name") ⟨12, 13⟩ [],
         .node "declaration_list" (some "body") ⟨13, 39⟩
          [.node "\x7b" none ⟨13, 14⟩ [],
           .node "const_declaration" none ⟨14, 24⟩
            [.node "const" none ⟨14, 19⟩ [],
             .node "const_element" none ⟨20, 23⟩
              [.node "name" none ⟨20, 21⟩ [],
               .node "=" none ⟨21, 22⟩ [],
               .node "integer" none ⟨22, 23⟩ []],
             .node ";" none ⟨23, 24⟩ []],
           .node "method_declaration" none ⟨24, 38⟩
            [.node "function" none ⟨24, 32⟩ [],
             .node "name" (some "name") ⟨33, 34⟩ [],
             .node "formal_parameters" (some "parameters") ⟨34, 36⟩
              [.node "(" none ⟨34, 35⟩ [],
               .node ")" none ⟨35, 36⟩ []],
             .node "compound_statement" (some "body") ⟨36, 38⟩
              [.node "\x7b" none ⟨36, 37⟩ [],
               .node "\x7d" none ⟨37, 38⟩ []]],
           .node "\x7d" none ⟨38, 39⟩ []]]]
    let found := Extraction.declarations "a.php" source tree
    tree.all SyntaxTree.isNamedOnce = true ∧
      found.map (fun d => (d.symbol.name, d.symbol.scope?)) =
        [("C", some "A"), ("f", some "A"), ("A", none)] ∧
      ∀ d ∈ found, ∀ owner, d.symbol.scope? = some owner → d.Attributed found owner := by
  intro source tree found
  have hnamed : tree.all SyntaxTree.isNamedOnce = true := by decide
  obtain ⟨-, -, -, hfound⟩ := reading_balanced "a.php" source hnamed
  exact ⟨hnamed, by decide +kernel, fun d hd => (hfound d hd).2⟩

end PhpIndex
