import PhpIndex.Extract.Walk

/-!
# The small steps of a reading

While constructs take up items and turn into items themselves, states change by few kinds of steps:
imports and documentation come and go, variables are bound, and the class around gets a parent. A
relation of states that allows these holds across all of that; one that does not allow for imports
still holds across all but the statements about namespaces and imports. Reading the name of a
class, and entering and leaving a function or class, are steps of their own.
Main statements: `Quiet.accept`, `Small.accept`, `Small.finish`, `Ample.offer`, `Open.holding_hand`.
-/
namespace PhpIndex.Extract

theorem run_bind_eq {action : StateM State α} {next : α → StateM State β} {s s' : State} {a : α}
    (h : action.run s = (a, s')) : (action >>= next).run s = (next a).run s' := by
  rw [StateT.run_bind, h]
  rfl

/-- A relation of states that the small steps of a reading never leave where imports stay. -/
structure Quiet (R : State → State → Prop) : Prop where
  refl : ∀ s, R s s
  trans : ∀ {a b c}, R a b → R b c → R a c
  doc : ∀ s doc?, R s { s with doc? }
  bind : ∀ s name types, R s (s.bind name types)
  parent : ∀ s parent?, R s (s.modifyClass fun context => { context with parent? })

/-- A relation of states that the small steps of a reading never leave. -/
structure Small (R : State → State → Prop) : Prop where
  refl : ∀ s, R s s
  trans : ∀ {a b c}, R a b → R b c → R a c
  imports : ∀ s imports, R s { s with imports }
  doc : ∀ s doc?, R s { s with doc? }
  bind : ∀ s name types, R s (s.bind name types)
  parent : ∀ s parent?, R s (s.modifyClass fun context => { context with parent? })

theorem Small.quiet {R : State → State → Prop} (hR : Small R) : Quiet R where
  refl := hR.refl
  trans := hR.trans
  doc := hR.doc
  bind := hR.bind
  parent := hR.parent

/-- Whether the action leads to related states only. -/
def Obeys (R : State → State → Prop) (action : StateM State α) : Prop := ∀ s, R s (action.run s).2

def Item.isName : Item → Bool
  | .name _ _ => true
  | _ => false

/-- How a construct is seen by the constructs in it: as a function, as a class with its name as far
as it was read, or as nothing of the sort. -/
inductive Mark where
  | function
  | class (sort? : Option ClassSort) (name? : Option String)
  | other
  deriving DecidableEq

def Mark.isClass : Mark → Bool
  | .class _ _ => true
  | _ => false

namespace Construct

def mark : Construct → Mark
  | .callable _ => .function
  | .classBody c => .class c.sort? c.name?
  | _ => .other

def isNamespace : Construct → Bool
  | .namespaceStatement _ => true
  | _ => false

def isUse : Construct → Bool
  | .useStatement _ => true
  | _ => false

/-- Whether a construct takes up an item by small steps and is seen as before, or is a class and
gets its name. -/
def TakesBy (R : State → State → Prop) (construct : Construct) (item : Item) (place : Place)
    (s : State) : Prop :=
  R s ((construct.accept item place).run s).2 ∧
      ((construct.accept item place).run s).1.1.mark = construct.mark ∨
    place.isField "name" = true ∧ item.isName = true ∧ ∃ sort name? name,
      construct.mark = .class (some sort) name? ∧
      ((construct.accept item place).run s).1.1.mark = .class (some sort) (some name) ∧
      ((construct.accept item place).run s).2 = s.modifyClass fun context => { context with name }

end Construct

namespace Quiet
variable {R : State → State → Prop} (hR : Quiet R)
include hR

theorem pure (a : α) : Obeys R (Pure.pure a : StateM State α) := hR.refl

theorem get : Obeys R (MonadState.get : StateM State State) := hR.refl

theorem andThen {action : StateM State α} {next : α → StateM State β} (h : Obeys R action)
    (hnext : ∀ a, Obeys R (next a)) : Obeys R (action >>= next) :=
  fun s => hR.trans (h s) (hnext _ _)

theorem ofGet {next : State → StateM State β} (hnext : ∀ s, Obeys R (next s)) :
    Obeys R (MonadState.get >>= next) := hR.andThen hR.get hnext

theorem modifyDoc (doc? : State → Option DocComment) :
    Obeys R (modify fun s => { s with doc? := doc? s }) := fun s => hR.doc s _

theorem modifyBind (name : State → String) (types : State → TypeUnion) :
    Obeys R (modify fun s : State => s.bind (name s) (types s)) := fun s => hR.bind s _ _

/-! ## Taking up items -/

/-- A class reads its name by a step of another sort, and everything else by small ones. -/
theorem accept_classBody (c : ClassBody) (item : Item) (place : Place) (s : State) :
    R s ((c.accept item place).run s).2 ∧
        ((c.accept item place).run s).1.1.sort? = c.sort? ∧
        ((c.accept item place).run s).1.1.name? = c.name? ∨
      place.isField "name" = true ∧ item.isName = true ∧ ∃ sort name, c.sort? = some sort ∧
        ((c.accept item place).run s).1.1.sort? = some sort ∧
        ((c.accept item place).run s).1.1.name? = some name ∧
        ((c.accept item place).run s).2 = s.modifyClass fun context => { context with name } := by
  unfold ClassBody.accept
  split
  · split
    next hfield =>
      obtain ⟨hname, hsort⟩ := Bool.and_eq_true_iff.1 hfield
      obtain ⟨sort, hsort⟩ := Option.isSome_iff_exists.1 hsort
      exact .inr ⟨hname, rfl, sort, _, hsort, hsort, rfl, rfl⟩
    · exact .inl ⟨hR.refl s, rfl, rfl⟩
  next role names =>
    cases role with
    | parents => exact .inl ⟨hR.parent s _, rfl, rfl⟩
    | interfaces => exact .inl ⟨hR.refl s, rfl, rfl⟩
    | traits => exact .inl ⟨hR.refl s, rfl, rfl⟩
  · exact .inl ⟨hR.refl s, rfl, rfl⟩
  · split <;> exact .inl ⟨hR.refl s, rfl, rfl⟩
  · exact .inl ⟨hR.refl s, rfl, rfl⟩

theorem accept_callable (c : Callable) (item : Item) (place : Place) :
    Obeys R (c.accept item place) := by
  have hparameter (p : Parameter) : Obeys R (c.acceptParameter p) := by
    unfold Callable.acceptParameter
    split
    · split
      · exact hR.ofGet fun _ => hR.andThen (hR.modifyBind _ _) fun _ => hR.pure _
      · exact hR.pure _
    · exact hR.pure _
  unfold Callable.accept
  split
  · split <;> exact hR.pure _
  · split <;> exact hR.pure _
  · exact hR.andThen (hparameter _) fun _ => hR.pure _
  · split <;> exact hR.pure _
  · exact hR.pure _
  · exact hR.pure _
  · exact hR.pure _

theorem accept_parameter (p : ParameterEntry) (item : Item) (place : Place) :
    Obeys R (p.accept item place) := by
  unfold ParameterEntry.accept
  split
  · split <;> exact hR.pure _
  · split
    · exact hR.pure _
    · split <;> exact hR.pure _
  · exact hR.pure _
  · split
    · exact hR.andThen (hR.modifyBind _ _) fun _ => hR.pure _
    · exact hR.ofGet fun _ => hR.pure _
  · exact hR.ofGet fun _ => hR.pure _

theorem accept_loop (l : ElementLoop) (item : Item) : Obeys R (l.accept item) := by
  unfold ElementLoop.accept
  split
  · exact hR.pure _
  · split
    · split
      · exact hR.andThen (hR.modifyBind _ _) fun _ => hR.pure _
      · exact hR.pure _
    · exact hR.pure _

theorem accept_catchClause (c : CatchClause) (item : Item) (place : Place) :
    Obeys R (c.accept item place) := by
  unfold CatchClause.accept
  split
  · split <;> exact hR.pure _
  · split
    · split
      · exact hR.andThen (hR.modifyBind _ _) fun _ => hR.pure _
      · exact hR.pure _
    · exact hR.pure _

theorem accept_globals (item : Item) : Obeys R (acceptGlobal item) := by
  unfold acceptGlobal
  split
  · exact hR.pure _
  · exact hR.andThen (hR.modifyBind _ _) fun _ => hR.pure _

/-- What is neither a class nor a `namespace` statement takes up items by small steps that leave the
imports as they are. -/
theorem accept_of_not_class {construct : Construct} (hnamespace : construct.isNamespace = false)
    (hclass : construct.mark.isClass = false) (item : Item) (place : Place) :
    Obeys R (construct.accept item place) := by
  refine hR.ofGet fun s => ?_
  cases construct with
  | namespaceStatement n => cases hnamespace
  | classBody c => cases hclass
  | callable c => exact hR.andThen (hR.accept_callable c item place) fun _ => hR.pure _
  | parameter p => exact hR.andThen (hR.accept_parameter p item place) fun _ => hR.pure _
  | loop l => exact hR.andThen (hR.accept_loop l item) fun _ => hR.pure _
  | catchClause c => exact hR.andThen (hR.accept_catchClause c item place) fun _ => hR.pure _
  | globals => exact hR.andThen (hR.accept_globals item) fun _ => hR.pure _
  | «alias» name? =>
    cases item with
    | _ => exact hR.pure _
  | _ => exact hR.pure _

/-- What lies in a construct changes its state by small steps and leaves how it is seen, except
that a class gets its name. Imports stay as they are outside of a `namespace` statement. -/
theorem accept {construct : Construct} (hnamespace : construct.isNamespace = false) (item : Item)
    (place : Place) (s : State) : construct.TakesBy R item place s := by
  cases construct with
  | classBody c =>
    rcases hR.accept_classBody c item place s with
      ⟨hsmall, hsort, hname⟩ | ⟨hfield, hitem, sort, name, hc, hsort, hname, hstep⟩
    · exact .inl ⟨hsmall, by rw [Construct.mark, ← hsort, ← hname]; rfl⟩
    · refine .inr ⟨hfield, hitem, sort, c.name?, name, by rw [Construct.mark, hc], ?_, hstep⟩
      rw [← hsort, ← hname]
      rfl
  | «alias» name? =>
    refine .inl ⟨hR.accept_of_not_class rfl rfl item place s, ?_⟩
    cases item with
    | _ => rfl
  | namespaceStatement n => cases hnamespace
  | _ => exact .inl ⟨hR.accept_of_not_class rfl rfl item place s, rfl⟩

/-! ## Being left -/

theorem finish_captures (c : Captures) : Obeys R c.finish := by
  have hcapture (s : State) (name : String) : R s (Captures.capture s name) := by
    unfold Captures.capture
    split
    · exact hR.refl s
    · exact hR.bind s _ _
  refine hR.andThen (fun s => ?_) fun _ => hR.pure _
  change R s (c.names.foldl Captures.capture s)
  induction c.names generalizing s with
  | nil => exact hR.refl s
  | cons name rest ih => exact hR.trans (hcapture s name) (ih _)

theorem finish_assignment (a : Assignment) (range : Range) : Obeys R (a.finish range) := by
  intro s
  unfold Assignment.finish
  cases a.target? with
  | none => exact hR.refl s
  | some target => exact hR.bind s _ _

/-- What is neither a function nor a class is left by small steps, and the imports stay as they are
where it is no statement about them. -/
theorem finish {construct : Construct} (hmark : construct.mark = .other)
    (hnamespace : construct.isNamespace = false) (huse : construct.isUse = false) (range : Range) :
    Obeys R (construct.finish range) := by
  refine hR.ofGet fun s => ?_
  cases construct with
  | namespaceStatement n => cases hnamespace
  | useStatement u => cases huse
  | classBody c => cases hmark
  | callable c => cases hmark
  | captures c => exact hR.finish_captures c
  | assignment a => exact hR.finish_assignment a range
  | _ => exact hR.pure _

/-! ## Documentation -/

theorem takeDoc (kind : String) (construct? : Option Construct) :
    Obeys R (Extract.takeDoc kind construct?) := by
  refine hR.ofGet fun s => ?_
  simp only
  split
  · exact hR.andThen (hR.modifyDoc _) fun _ => hR.pure _
  · exact hR.pure _
  · split
    · exact hR.andThen (hR.modifyDoc _) fun _ => hR.pure _
    · exact hR.pure _

theorem noteComment (kind : String) (range : Range) (s : State) :
    R s (Extract.noteComment kind range s) := by
  unfold Extract.noteComment
  split
  · exact hR.doc s _
  · exact hR.refl s

end Quiet

/-! ## Imports -/

namespace Small
variable {R : State → State → Prop} (hR : Small R)
include hR

theorem modifyImports (imports : State → Imports) :
    Obeys R (modify fun s => { s with imports := imports s }) := fun s => hR.imports s _

theorem accept_namespaceStatement (n : NamespaceStatement) (item : Item) (place : Place) :
    Obeys R (n.accept item place) := by
  unfold NamespaceStatement.accept
  split
  · split
    · exact hR.quiet.andThen (hR.modifyImports _) fun _ => hR.quiet.pure _
    · exact hR.quiet.pure _
  · exact hR.quiet.pure _

/-- What lies in a construct changes its state by small steps and leaves how it is seen, except
that a class gets its name. -/
theorem accept (construct : Construct) (item : Item) (place : Place) (s : State) :
    construct.TakesBy R item place s := by
  cases construct with
  | namespaceStatement n => exact .inl ⟨hR.accept_namespaceStatement n item place s, rfl⟩
  | _ => exact hR.quiet.accept rfl item place s

theorem finish_namespaceStatement (n : NamespaceStatement) : Obeys R n.finish := by
  unfold NamespaceStatement.finish
  split
  · exact hR.quiet.andThen (hR.modifyImports _) fun _ => hR.quiet.pure _
  · exact hR.quiet.pure _

theorem finish_useStatement (u : UseStatement) : Obeys R u.finish := by
  unfold UseStatement.finish
  induction u.clauses with
  | nil => exact hR.quiet.pure _
  | cons c rest ih =>
    rw [List.mapM_cons]
    have hregister : Obeys R (u.register c) :=
      hR.quiet.andThen (hR.modifyImports _) fun _ => hR.quiet.ofGet fun _ => hR.quiet.pure _
    exact hR.quiet.andThen hregister fun _ => hR.quiet.andThen ih fun _ => hR.quiet.pure _

/-- What is neither a function nor a class is left by small steps. -/
theorem finish {construct : Construct} (hmark : construct.mark = .other) (range : Range) :
    Obeys R (construct.finish range) := by
  cases construct with
  | namespaceStatement n => exact hR.quiet.ofGet fun _ => hR.finish_namespaceStatement n
  | useStatement u => exact hR.quiet.ofGet fun _ => hR.finish_useStatement u
  | classBody c => cases hmark
  | callable c => cases hmark
  | _ => exact hR.quiet.finish rfl rfl rfl range

end Small

/-! ## Functions and classes -/

theorem state_finish_callable (c : Callable) (range : Range) (s : State) :
    (((Construct.callable c).finish range).run s).2 = s.closeScope := by
  unfold Construct.finish Callable.finish
  simp only [StateT.run_bind, StateT.run_get, StateT.run_modify, pure_bind]
  split
  · rfl
  · rfl
  · rfl
  · rfl
  · split <;> rfl

theorem state_finish_classBody (c : ClassBody) (range : Range) (s : State) :
    (((Construct.classBody c).finish range).run s).2 = s.closeClass := by
  unfold Construct.finish ClassBody.finish
  simp only [StateT.run_bind, StateT.run_get, StateT.run_set, pure_bind]
  split <;> rfl

/-- A relation of states that allows functions and classes to be entered and left as well. -/
structure Ample (R : State → State → Prop) : Prop extends Small R where
  name : ∀ s name, R s (s.modifyClass fun context => { context with name })
  openScope : ∀ s scope, R s (s.openScope scope)
  closeScope : ∀ s, R s s.closeScope
  openClass : ∀ s context, R s (s.openClass context)
  closeClass : ∀ s, R s s.closeClass

namespace Ample
variable {R : State → State → Prop} (hR : Ample R)
include hR

theorem accept (construct : Construct) (item : Item) (place : Place) :
    Obeys R (construct.accept item place) := by
  intro s
  rcases hR.toSmall.accept construct item place s with ⟨h, -⟩ | ⟨-, -, _, _, _, -, -, h⟩
  · exact h
  · rw [h]
    exact hR.name s _

theorem finish (construct : Construct) (range : Range) : Obeys R (construct.finish range) := by
  intro s
  cases hmark : construct.mark with
  | other => exact hR.toSmall.finish hmark range s
  | function =>
    cases construct with
    | callable c =>
      rw [state_finish_callable]
      exact hR.closeScope s
    | _ => cases hmark
  | «class» sort? name? =>
    cases construct with
    | classBody c =>
      rw [state_finish_classBody]
      exact hR.closeClass s
    | _ => cases hmark

theorem start (role : Role) (tree : SyntaxTree) : Obeys R (role.start tree) := by
  intro s
  cases role with
  | namespaceStatement => exact hR.imports s _
  | classBody sort? => exact hR.openClass s _
  | callable sort => exact hR.openScope s _
  | _ => exact hR.refl s

theorem enter (tree : SyntaxTree) : Obeys R (Extract.enter tree) := by
  unfold Extract.enter
  split
  · exact hR.quiet.andThen (hR.start _ tree) fun _ => hR.quiet.takeDoc _ _
  · exact hR.quiet.takeDoc _ _

theorem offer (item : Item) (place : Place) (around : Open) :
    Obeys R (Extract.offer item place around) := by
  induction around generalizing place with
  | nil => exact hR.quiet.pure _
  | cons construct? outer ih =>
    cases construct? with
    | none =>
      unfold Extract.offer
      split
      · exact hR.quiet.pure _
      · exact hR.quiet.andThen (ih .deeper) fun _ => hR.quiet.pure _
    | some construct =>
      unfold Extract.offer
      refine hR.quiet.andThen (hR.accept construct item place) fun found => ?_
      obtain ⟨next, taken⟩ := found
      simp only
      split
      · exact hR.quiet.pure _
      · exact hR.quiet.andThen (ih .deeper) fun _ => hR.quiet.pure _

end Ample

/-! ## Documentation that is handed over -/

theorem Construct.isSome_withDoc (construct : Construct) (doc other : DocComment) :
    (construct.withDoc doc).isSome = (construct.withDoc other).isSome := by
  cases construct with
  | _ => rfl

/-- A documentation comment is handed to a construct or leaves it as it is. -/
theorem takeDoc_cases (kind : String) (construct? : Option Construct) (s : State) :
    ((takeDoc kind construct?).run s).1 = construct? ∨
      ∃ construct next doc, construct? = some construct ∧ construct.withDoc doc = some next ∧
        ((takeDoc kind construct?).run s).1 = some next := by
  unfold takeDoc
  simp only [StateT.run_bind, StateT.run_get, pure_bind]
  split
  next blank doc htakes _ =>
    right
    cases construct? with
    | none => cases htakes
    | some construct =>
      have hsome : (construct.withDoc doc).isSome := by
        rw [construct.isSome_withDoc doc {}]
        exact Option.isSome_of_mem htakes
      obtain ⟨next, hnext⟩ := Option.isSome_iff_exists.1 hsome
      exact ⟨construct, next, doc, rfl, hnext, hnext⟩
  · exact .inl rfl
  · split <;> exact .inl rfl

/-- What is open at a node is what its role starts with, but for documentation. -/
theorem enter_cases (tree : SyntaxTree) (s : State) :
    Role.ofKind? tree.kind = none ∧ ((enter tree).run s).1 = none ∨
      ∃ role next, Role.ofKind? tree.kind = some role ∧ ((enter tree).run s).1 = some next ∧
        (next = ((role.start tree).run s).1 ∨
          ∃ doc, ((role.start tree).run s).1.withDoc doc = some next) := by
  unfold enter
  cases Role.ofKind? tree.kind with
  | none =>
    refine .inl ⟨rfl, ?_⟩
    rcases takeDoc_cases tree.kind none s with hnone | ⟨_, _, _, hsome, -⟩
    · exact hnone
    · cases hsome
  | some role =>
    rcases hrun : (role.start tree).run s with ⟨construct, s'⟩
    simp only
    rw [run_bind_eq hrun]
    rcases takeDoc_cases tree.kind (some construct) s' with heq | ⟨_, next, doc, ⟨⟩, hnext, heq⟩
    · exact .inr ⟨role, construct, rfl, heq, .inl (congrArg Prod.fst hrun).symm⟩
    · exact .inr ⟨role, next, rfl, heq, .inr ⟨doc, (congrArg Prod.fst hrun).symm ▸ hnext⟩⟩

theorem Role.mem_table {kind : String} {role : Role} (h : ofKind? kind = some role) :
    (kind, role) ∈ table := by
  obtain ⟨front, back, heq, -⟩ := List.lookup_eq_some_iff.1 h
  rw [heq]
  exact List.mem_append_right front List.mem_cons_self

/-! ## Uses of class names that are kept -/

namespace Construct
variable {P : Item → Prop}

/-- Whether all uses of class names that the construct keeps for later are such items. -/
def Holding (P : Item → Prop) : Construct → Prop
  | .typeHint h => ∀ item ∈ h.references, P item
  | .member m => ∀ item ∈ m.scopeReference?, P item
  | _ => True

theorem holding_withDoc {construct next : Construct} {doc : DocComment}
    (h : construct.withDoc doc = some next) : next.Holding P := by
  cases construct <;> simp only [withDoc, Option.some.injEq, reduceCtorEq] at h <;>
    subst h <;> trivial

end Construct

theorem Role.holding_start {P : Item → Prop} (role : Role) (tree : SyntaxTree) (s : State) :
    ((role.start tree).run s).1.Holding P := by
  cases role with
  | typeHint nullable => exact List.forall_mem_nil _
  | member kind =>
    intro item hitem
    cases hitem
  | _ => trivial

theorem holding_enter {P : Item → Prop} (tree : SyntaxTree) (s : State) :
    ∀ c ∈ ((enter tree).run s).1, c.Holding P := by
  intro c hc
  rcases enter_cases tree s with ⟨-, hnone⟩ | ⟨role, next, -, hnext, heq⟩
  · rw [hnone] at hc
    cases hc
  · rw [hnext] at hc
    cases hc
    rcases heq with rfl | ⟨doc, hdoc⟩
    · exact role.holding_start tree s
    · exact Construct.holding_withDoc hdoc

section
variable {P : Item → Prop} (hP : ∀ (s : State) name range, P (s.classReference name range))
include hP

theorem TypeHint.holding_accept {h : TypeHint} (hrefs : ∀ item ∈ h.references, P item)
    (item : Item) (place : Place) (s : State) :
    ∀ item' ∈ (h.accept item place s).1.references, P item' := by
  unfold accept
  split
  · split
    · exact List.forall_mem_append.2 ⟨hrefs, List.forall_mem_singleton.2 (hP s _ _)⟩
    · exact hrefs
  · exact hrefs
  · split <;> exact hrefs
  · exact hrefs

theorem MemberAccess.holding_accept {m : MemberAccess} (hrefs : ∀ item ∈ m.scopeReference?, P item)
    (item : Item) (place : Place) (s : State) :
    ∀ item' ∈ (m.accept item place s).1.scopeReference?, P item' := by
  have hscope : ∀ item' ∈ (m.acceptScope item s).scopeReference?, P item' := by
    unfold acceptScope
    split
    · rintro item' ⟨⟩
      exact hP s _ _
    · split <;> exact hrefs
    · exact hrefs
    · exact hrefs
    · exact hrefs
  have hother : ∀ item' ∈ (m.acceptOther item place s).1.scopeReference?, P item' := by
    unfold acceptOther
    split
    · exact hrefs
    · split
      · exact hscope
      · exact hrefs
  unfold accept
  split
  · exact hrefs
  · split
    · exact hrefs
    · exact hother
  · exact hother

theorem Construct.holding_accept {construct : Construct} (h : construct.Holding P) (item : Item)
    (place : Place) (s : State) : ((construct.accept item place).run s).1.1.Holding P := by
  cases construct with
  | typeHint t => exact TypeHint.holding_accept hP h item place s
  | member m => exact MemberAccess.holding_accept hP h item place s
  | «alias» name? =>
    cases item with
    | _ => trivial
  | _ => trivial

namespace Open

def Holding (P : Item → Prop) (around : Open) : Prop :=
  ∀ construct? ∈ around, ∀ c ∈ construct?, c.Holding P

theorem holding_offer (item : Item) (place : Place) {around : Open} (h : around.Holding P)
    (s : State) : ((offer item place around).run s).1.Holding P := by
  induction around generalizing place s with
  | nil => exact List.forall_mem_nil _
  | cons construct? outer ih =>
    obtain ⟨hconstruct, houter⟩ := List.forall_mem_cons.1 h
    cases construct? with
    | none =>
      unfold offer
      split
      · exact h
      · exact List.forall_mem_cons.2 ⟨hconstruct, ih .deeper houter s⟩
    | some construct =>
      have hself := Construct.holding_accept hP (hconstruct construct rfl) item place s
      unfold offer
      rcases hrun : (construct.accept item place).run s with ⟨⟨next, taken⟩, s'⟩
      rw [hrun] at hself
      rw [run_bind_eq hrun]
      have hnext : ∀ c ∈ some next, c.Holding P := by
        rintro c ⟨⟩
        exact hself
      simp only
      split
      · exact List.forall_mem_cons.2 ⟨hnext, houter⟩
      · exact List.forall_mem_cons.2 ⟨hnext, ih .deeper houter s'⟩

theorem holding_hand (items : List Item) (field? : Option String) {around : Open}
    (h : around.Holding P) (s : State) : ((hand items field? around).run s).1.Holding P := by
  unfold hand
  induction items generalizing around s with
  | nil => exact h
  | cons item rest ih =>
    rw [List.foldlM_cons]
    exact ih (holding_offer hP item (.child field?) h (s.record item)) _

end Open
end

end PhpIndex.Extract
