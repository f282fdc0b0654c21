import PhpIndex.Proofs.Extract.Balance
import PhpIndex.Proofs.Extract.Discipline

/-!
# Constructs under a discipline

What a construct takes up keeps its type names as a lawful discipline asks, and so does what it
turns into. Documentation is heeded at another place than where it was read: what it says of a
function, property or variable is resolved where the node of that is left, and what it says of a
parameter where the parameter is.
Main statements: `Construct.yields_accept`, `Construct.yields_finish`.
-/
namespace PhpIndex.Extract

variable {D : Discipline}

/-- Whether an action has such an outcome and leaves a state in which all type names are as
asked. -/
def Yields (D : Discipline) (action : StateM State α) (s : State) (post : α → Prop) : Prop :=
  post (action.run s).1 ∧ (action.run s).2.Typed D

namespace Yields
variable {action : StateM State α} {s : State} {post : α → Prop}

theorem pure {a : α} (h : post a) (hs : s.Typed D) : Yields D (Pure.pure a) s post := ⟨h, hs⟩

theorem afterModify {f : State → State} {next : PUnit → StateM State α}
    (h : Yields D (next ()) (f s) post) : Yields D (modify f >>= next) s post := h

theorem afterSet {s' : State} {next : PUnit → StateM State α} (h : Yields D (next ()) s' post) :
    Yields D (set s' >>= next) s post := h

theorem ofGet {next : State → StateM State α} (h : Yields D (next s) s post) :
    Yields D (MonadState.get >>= next) s post := h

theorem bind (h : Yields D action s post) {next : α → StateM State β} {post' : β → Prop}
    (hnext : ∀ a s', post a → s'.Typed D → Yields D (next a) s' post') :
    Yields D (action >>= next) s post' := hnext _ _ h.1 h.2

theorem map (h : Yields D action s post) {f : α → β}
    {post' : β → Prop} (hf : ∀ a, post a → post' (f a)) :
    Yields D (do return f (← action)) s post' := ⟨hf _ h.1, h.2⟩

end Yields

theorem mem_of_lookup [BEq α] [LawfulBEq α] {a : α} {b : β} {l : List (α × β)}
    (h : l.lookup a = some b) : (a, b) ∈ l := by
  obtain ⟨front, back, rfl, -⟩ := List.lookup_eq_some_iff.1 h
  exact List.mem_append_right front List.mem_cons_self

/-! ## Items -/

namespace Item.Typed
variable {item : Item} {replaced : Bool}

theorem value? (h : item.Typed D replaced) : ∀ v ∈ item.value?, v.2.All D.type := by
  intro v hv
  cases item with
  | value types range =>
    cases hv
    exact h
  | reference r types =>
    obtain ⟨range, -, rfl⟩ := Option.map_eq_some_iff.1 hv
    exact h.2
  | name text range =>
    cases hv
    exact TypeUnion.all_empty
  | _ => cases hv

theorem types? (h : item.Typed D replaced) : ∀ u ∈ item.types?, u.All D.type := by
  intro u hu
  obtain ⟨v, hv, rfl⟩ := Option.map_eq_some_iff.1 hu
  exact h.value? v hv

theorem getD (h : item.Typed D replaced) {u : TypeUnion} (hu : u.All D.type) :
    (item.types?.getD u).All D.type := TypeUnion.All.getD h.types? hu

end Item.Typed

theorem ReferenceKind.ne_of_isMember {kind : ReferenceKind} (h : kind.isMember = true) :
    kind ∉ [.function, .constantAccess, .className, .newOperand] ∧ kind ≠ .argumentList ∧
      kind ≠ .variable := by
  revert h
  cases kind <;> decide

def Item.isParameter : Item → Bool
  | .parameter _ => true
  | _ => false

/-- What is handed on from nodes that were left: the name neither of a class nor of a variable, and
a parameter only where one may be. -/
structure Item.Passed (D : Discipline) (parameter : Bool) (item : Item) : Prop where
  typed : item.Typed D false
  isName : item.isName = false
  variableName? : item.variableName? = none
  isParameter : item.isParameter = true → parameter = true

theorem passed_classReference (hD : D.Lawful) (s : State) {name : TypeName} (hname : D.type name)
    (range : Range) : (s.classReference name range).Passed D false where
  typed := ⟨⟨fun _ => TypeUnion.all_single (hD.used name hname), nofun⟩, TypeUnion.all_empty⟩
  isName := rfl
  variableName? := rfl
  isParameter := nofun

theorem passed_argumentReference {callee : TypeUnion} {scope? : Option TypeUnion}
    (hcallee : scope? = none → callee.All D.used) (hscope : ∀ u ∈ scope?, u.All D.used)
    (l : ArgumentList) (s : State) : (argumentReference callee scope? l s).Passed D false where
  typed := ⟨⟨fun h => hcallee (h.elim (fun h => by cases h; contradiction) And.right), hscope⟩,
    TypeUnion.all_empty⟩
  isName := rfl
  variableName? := rfl
  isParameter := nofun

/-! ## Constructs -/

namespace Construct

/-- Whether the type names that the construct has taken up are as asked. -/
def Typed (D : Discipline) : Construct → Prop
  | .useName u => ∀ name ∈ u.name?, D.spelled false name.1 = true
  | .useStatement u => ∀ c ∈ u.clauses, D.spelled false c.name = true
  | .nameList l => ∀ name ∈ l.names, D.owner name.1
  | .callable c => (∀ p ∈ c.parameters, p.types.All D.type) ∧ c.declared.All D.type ∧
      c.inferred.All D.type
  | .parameter p => p.types.All D.type
  | .typeHint h => h.types.All D.type ∧ ∀ item ∈ h.references, item.Passed D false
  | .properties g => g.types.All D.type ∧ ∀ e ∈ g.elements, e.value.All D.type
  | .constants g => ∀ e ∈ g.elements, e.value.All D.type
  | .element e => ∀ v ∈ e.value?, v.2.All D.type
  | .call c => ∀ l ∈ c.arguments?, ∀ a ∈ l.arguments, a.value.All D.type
  | .creation c => (∀ name ∈ c.class?, D.type name.1) ∧ c.types.All D.type
  | .member m => m.kind.isMember = true ∧ (∀ u ∈ m.scope?, u.All D.used) ∧
      ∀ item ∈ m.scopeReference?, item.Passed D false
  | .arguments l => ∀ a ∈ l.arguments, a.value.All D.type
  | .argument a => ∀ v ∈ a.value?, v.2.All D.type
  | .assignment a => a.value.All D.type
  | .returned v => v.types.All D.type
  | .group v => v.types.All D.type
  | .literal name => D.type (.ofSource name)
  | .binary b => b.left.All D.type ∧ b.right.All D.type
  | .unary u => u.operand.All D.type
  | .cast c => c.types.All D.type
  | .conditional c => c.condition.All D.type ∧ (∀ u ∈ c.body?, u.All D.type) ∧
      c.alternative.All D.type
  | .catchClause c => c.types.All D.type
  | _ => True

/-- The types that documentation gives to what is declared when the node is left. -/
def said : Construct → List TypeName
  | .callable c => ((c.doc?.map DocComment.returns).getD .empty).types
  | .properties g => (((g.doc?.bind DocComment.var?).map VarTag.types).getD .empty).types
  | .assignment a => (((a.doc?.bind DocComment.var?).map VarTag.types).getD .empty).types
  | _ => []

/-- The documentation of the parameters that a function takes up. -/
def heard? : Construct → Option DocComment
  | .callable c => some (c.doc?.getD {})
  | _ => none

/-- Whether the construct takes up names for imports. -/
def isImport : Construct → Bool
  | .useStatement _ => true
  | .useName _ => true
  | _ => false

end Construct

def Construct.isParameter : Construct → Bool
  | .parameter _ => true
  | _ => false

def Construct.isMember : Construct → Bool
  | .member _ => true
  | _ => false

/-- Whether what documentation says of parameters is as asked. -/
def Discipline.Hears (D : Discipline) (replaced : Bool) (doc? : Option DocComment) : Prop :=
  ∀ doc ∈ doc?, ∀ e ∈ doc.params, ∀ t ∈ e.2.types, D.documented replaced t = true

/-- What is known of an item where a construct takes it up. -/
structure Construct.Suits (D : Discipline) (construct : Construct) (replaced : Bool) (item : Item)
    (place : Place) (s : State) : Prop where
  inside : replaced = true → s.memberScope?.isSome = true
  notImport : replaced = true → construct.isImport = false
  notName : replaced = true → place.isField "name" = true → construct.mark.isClass = false
  accessed : place.isChild = true → construct.isMember = true →
    ∀ name ∈ item.variableName?, D.accessed name = true
  parameter : item.isParameter = true → D.Hears s.memberScope?.isSome construct.heard?

/-! ## Taking up items -/

section Accept
variable {item : Item} {place : Place} {replaced : Bool} {s : State}

theorem UseName.typed_accept {u : UseName} (hu : (Construct.useName u).Typed D)
    (hitem : item.Typed D false) : (Construct.useName (u.accept item place).1).Typed D := by
  unfold accept
  split
  · split
    · exact hu
    · split <;> exact hu
  · split
    · exact hu
    · split
      · rintro name ⟨⟩
        exact hitem
      · exact hu
  · exact hu
  · exact hu

theorem UseStatement.typed_accept {u : UseStatement} (hu : (Construct.useStatement u).Typed D)
    (hitem : item.Typed D false) : (Construct.useStatement (u.accept item).1).Typed D := by
  unfold accept
  split
  · split <;> exact hu
  · exact hu
  · exact List.forall_mem_append.2 ⟨hu, List.forall_mem_singleton.2 hitem⟩
  · exact hu

theorem NamespaceStatement.yields_accept (n : NamespaceStatement) (item : Item) (place : Place)
    (hs : s.Typed D) : Yields D (n.accept item place) s fun _ => True := by
  unfold accept
  cases item with
  | name text range =>
    simp only
    split
    · exact .afterModify (.pure trivial (hs.setNamespace text))
    · exact .pure trivial hs
  | _ => exact .pure trivial hs

theorem NameList.typed_accept (hD : D.Lawful) {l : NameList}
    (hl : (Construct.nameList l).Typed D) (hitem : item.Typed D replaced)
    (hinside : replaced = true → s.memberScope?.isSome = true) (hs : s.Typed D) :
    (Construct.nameList (l.accept item place s).1).Typed D := by
  unfold accept
  split
  · split
    · refine List.forall_mem_append.2 ⟨hl, List.forall_mem_singleton.2 ?_⟩
      dsimp only
      exact hD.owner _ (hD.resolveClass s replaced _ hs hinside hitem)
    · exact hl
  · exact hl

theorem ClassBody.yields_accept (hD : D.Lawful) (c : ClassBody) (hitem : item.Typed D replaced)
    (hname : place.isField "name" = true → replaced = false) (hs : s.Typed D) :
    Yields D (c.accept item place) s fun _ => True := by
  unfold accept
  split
  · split
    next hfield =>
      obtain ⟨hfield, -⟩ := Bool.and_eq_true_iff.1 hfield
      rw [hname hfield] at hitem
      refine ⟨trivial, hs.modifyClass _ fun context hcontext => ⟨fun _ => ?_, ?_⟩⟩
      · exact hD.className s.imports _ hitem
      · exact hs.parents context hcontext
    · exact ⟨trivial, hs⟩
  next role names =>
    cases role with
    | parents =>
      refine ⟨trivial, hs.modifyClass _ fun context hcontext => ⟨hs.names context hcontext, ?_⟩⟩
      exact fun parent hparent => hitem parent (List.mem_of_mem_head? hparent)
    | interfaces => exact ⟨trivial, hs⟩
    | traits => exact ⟨trivial, hs⟩
  · exact ⟨trivial, hs⟩
  · split <;> exact ⟨trivial, hs⟩
  · exact ⟨trivial, hs⟩

theorem Callable.yields_acceptParameter (hD : D.Lawful) {c : Callable}
    (hc : (Construct.callable c).Typed D) {p : Parameter} (hp : p.types.All D.type)
    (hdoc : ∀ e ∈ (c.doc?.getD {}).params, ∀ t ∈ e.2.types,
      D.documented s.memberScope?.isSome t = true) (hs : s.Typed D) :
    Yields D (c.acceptParameter p) s fun next => (Construct.callable next).Typed D := by
  obtain ⟨hparameters, htypes⟩ := hc
  have hmore {q : Parameter} (hq : q.types.All D.type) :
      ∀ x ∈ c.parameters ++ [q], x.types.All D.type :=
    List.forall_mem_append.2 ⟨hparameters, List.forall_mem_singleton.2 hq⟩
  unfold acceptParameter
  split
  next declared hdeclared =>
    split
    · obtain ⟨doc, hsome, hlookup⟩ := Option.bind_eq_some_iff.1 hdeclared
      rw [hsome] at hdoc
      have hresolved := hs.resolveDocumented hD (hdoc _ (mem_of_lookup hlookup))
      exact ⟨⟨hmore hresolved, htypes⟩, hs.bind _ hresolved⟩
    · exact ⟨⟨hmore hp, htypes⟩, hs⟩
  · exact ⟨⟨hmore hp, htypes⟩, hs⟩

theorem Callable.typed_acceptFragment {c : Callable} (hc : (Construct.callable c).Typed D)
    (hitem : item.Typed D replaced) (place : Place) :
    (Construct.callable (c.acceptFragment item place).1).Typed D := by
  unfold acceptFragment
  split
  · exact ⟨hc.1, hc.2.1, hc.2.2.merge (hitem.getD TypeUnion.all_empty)⟩
  · exact hc

theorem Callable.yields_accept (hD : D.Lawful) {c : Callable} (hc : (Construct.callable c).Typed D)
    (hitem : item.Typed D replaced)
    (hdoc : item.isParameter = true → ∀ e ∈ (c.doc?.getD {}).params, ∀ t ∈ e.2.types,
      D.documented s.memberScope?.isSome t = true) (hs : s.Typed D) :
    Yields D (c.accept item place) s fun found => (Construct.callable found.1).Typed D := by
  unfold accept
  split
  · split
    · exact ⟨hc, hs⟩
    · exact ⟨typed_acceptFragment hc hitem place, hs⟩
  · split
    · exact ⟨hc, hs⟩
    · exact ⟨hc, hs⟩
  next p => exact (yields_acceptParameter hD hc hitem (hdoc rfl) hs).map fun _ h => h
  · split
    · exact ⟨⟨hc.1, hc.2.1.merge hitem, hc.2.2⟩, hs⟩
    · exact ⟨hc, hs⟩
  · exact ⟨⟨hc.1, hc.2.1, hc.2.2.merge hitem⟩, hs⟩
  · exact ⟨hc, hs⟩
  · exact ⟨typed_acceptFragment hc hitem place, hs⟩

theorem ParameterEntry.typed_acceptFragment {p : ParameterEntry} (hp : p.types.All D.type)
    (item : Item) (place : Place) (s : State) :
    (p.acceptFragment item place s).1.types.All D.type := by
  unfold acceptFragment
  split
  · split <;> exact hp
  · exact hp

theorem ParameterEntry.yields_accept {p : ParameterEntry} (hp : p.types.All D.type)
    (hitem : item.Typed D replaced) (hs : s.Typed D) :
    Yields D (p.accept item place) s fun found => found.1.types.All D.type := by
  unfold accept
  split
  · split
    · exact ⟨TypeUnion.All.merge hp hitem, hs⟩
    · exact ⟨hp, hs⟩
  · split
    · exact ⟨hp, hs⟩
    · split <;> exact ⟨hp, hs⟩
  · exact ⟨hp, hs⟩
  · split
    · exact ⟨hp, hs.bind _ hp⟩
    · exact ⟨typed_acceptFragment hp _ place s, hs⟩
  · exact ⟨typed_acceptFragment hp _ place s, hs⟩

theorem TypeHint.typed_accept (hD : D.Lawful) {h : TypeHint} (hh : (Construct.typeHint h).Typed D)
    (hitem : item.Typed D replaced)
    (hinside : replaced = true → s.memberScope?.isSome = true) (hs : s.Typed D) :
    (Construct.typeHint (h.accept item place s).1).Typed D := by
  unfold accept
  split
  · split
    · have hname := hD.resolveClass s replaced _ hs hinside hitem
      exact ⟨hh.1.push hname, List.forall_mem_append.2
        ⟨hh.2, List.forall_mem_singleton.2 (passed_classReference hD s hname _)⟩⟩
    · exact hh
  · exact ⟨hh.1.merge hitem, hh.2⟩
  · split <;> exact hh
  · exact hh

theorem ElementEntry.typed_accept (hD : D.Lawful) {e : ElementEntry}
    (he : (Construct.element e).Typed D) (hitem : item.Typed D replaced) (hs : s.Typed D) :
    (Construct.element (e.accept item s).1).Typed D := by
  have hvalue : (Construct.element (e.acceptValue item s).1).Typed D := by
    unfold acceptValue
    split
    next range types hsome =>
      split
      · rintro v ⟨⟩
        exact hs.resolveTypes hD (hitem.value? _ hsome)
      · exact he
    · exact he
  unfold accept
  split
  · split
    · exact he
    · exact hvalue
  · exact he
  · exact hvalue

theorem PropertyGroup.typed_withFlags {g : PropertyGroup} (hg : (Construct.properties g).Typed D)
    (item : Item) : (Construct.properties (g.withFlags item)).Typed D := by
  unfold withFlags
  generalize withModifier (g.modifiers, g.visibility) item = flags
  exact hg

theorem PropertyGroup.typed_accept {g : PropertyGroup} (hg : (Construct.properties g).Typed D)
    (hitem : item.Typed D replaced) :
    (Construct.properties (g.accept item place).1).Typed D := by
  unfold accept
  split
  next word => exact typed_withFlags hg (.modifier word)
  next text => exact typed_withFlags hg (.token text)
  · split
    · exact ⟨hg.1.merge hitem, hg.2⟩
    · exact hg
  · exact ⟨hg.1, List.forall_mem_append.2 ⟨hg.2, List.forall_mem_singleton.2 hitem⟩⟩
  · exact hg

theorem ConstantGroup.typed_withFlags {g : ConstantGroup} (hg : (Construct.constants g).Typed D)
    (item : Item) : (Construct.constants (g.withFlags item)).Typed D := by
  unfold withFlags
  exact hg

theorem ConstantGroup.typed_accept {g : ConstantGroup} (hg : (Construct.constants g).Typed D)
    (hitem : item.Typed D replaced) : (Construct.constants (g.accept item).1).Typed D := by
  unfold accept
  split
  next word => exact typed_withFlags hg (.modifier word)
  next text => exact typed_withFlags hg (.token text)
  · exact List.forall_mem_append.2 ⟨hg, List.forall_mem_singleton.2 hitem⟩
  · exact hg

theorem FunctionCall.typed_accept {c : FunctionCall} (hc : (Construct.call c).Typed D)
    (hitem : item.Typed D replaced) : (Construct.call (c.accept item place).1).Typed D := by
  unfold accept
  split
  · split <;> exact fun l hl => hc l hl
  · rintro l ⟨⟩
    exact hitem
  · exact hc

theorem Creation.typed_accept (hD : D.Lawful) {c : Creation} (hc : (Construct.creation c).Typed D)
    (hitem : item.Typed D replaced)
    (hinside : replaced = true → s.memberScope?.isSome = true) (hs : s.Typed D) :
    (Construct.creation (c.accept item place s).1).Typed D := by
  unfold accept
  split
  · exact hc
  · split
    · have hname := hD.resolveClass s replaced _ hs hinside hitem
      refine ⟨fun name hsome => ?_, hc.2.push hname⟩
      rw [← Option.some.inj hsome]
      dsimp only
      exact hname
    · exact hc
  · split
    · refine ⟨?_, hc.2.merge hitem⟩
      intro name hname
      obtain ⟨t, ht, rfl⟩ := Option.map_eq_some_iff.1 hname
      exact hitem t (List.mem_of_mem_head? ht)
    · exact hc
  · split
    · exact ⟨hc.1, hc.2.merge hitem⟩
    · exact hc
  next role names =>
    refine ⟨hc.1, hc.2.foldl_push ?_⟩
    split
    · exact List.forall_mem_map.2 fun name hname => hD.ofOwner name (hitem name hname)
    · exact List.forall_mem_nil _
  · exact hc

theorem MemberAccess.typed_accept (hD : D.Lawful) {m : MemberAccess}
    (hm : (Construct.member m).Typed D) (hitem : item.Typed D replaced)
    (hinside : replaced = true → s.memberScope?.isSome = true)
    (haccessed : place.isChild = true → ∀ name ∈ item.variableName?, D.accessed name = true)
    (hs : s.Typed D) : (Construct.member (m.accept item place s).1).Typed D := by
  obtain ⟨hkind, hscope, hreference⟩ := hm
  have htaken {u : TypeUnion} (hu : u.All D.type) : ∀ w ∈ some u, w.All D.used := by
    rintro w ⟨⟩
    exact hu.mono hD.used
  have hacceptScope (hchild : place.isChild = true) :
      (Construct.member (m.acceptScope item s)).Typed D := by
    unfold acceptScope
    split
    · have hname := hD.resolveClass s replaced _ hs hinside hitem
      refine ⟨hkind, htaken (TypeUnion.all_single hname), ?_⟩
      rintro item ⟨⟩
      exact passed_classReference hD s hname _
    next r types =>
      split
      next hvariable =>
        refine ⟨hkind, ?_, hreference⟩
        rintro u ⟨⟩
        have hname : (Item.reference r types).variableName? = some r.name :=
          if_pos (by simpa using (Bool.and_eq_true_iff.1 hvariable).1)
        exact TypeUnion.all_single (hD.accessed _ (haccessed hchild _ hname))
      · exact ⟨hkind, htaken hitem.2, hreference⟩
    · exact ⟨hkind, htaken hitem, hreference⟩
    · exact ⟨hkind, htaken hitem, hreference⟩
    · exact ⟨hkind, htaken TypeUnion.all_empty, hreference⟩
  have hchild : m.isScope place = true → place.isChild = true := by
    cases place with
    | child field? => exact fun _ => rfl
    | deeper => simp [isScope, Place.isField, Place.field?, Place.isChild]
  have hother : (Construct.member (m.acceptOther item place s).1).Typed D := by
    unfold acceptOther
    split
    · exact ⟨hkind, hscope, hreference⟩
    · split
      next hplace => exact hacceptScope (hchild hplace)
      · exact ⟨hkind, hscope, hreference⟩
  unfold accept
  split
  · exact ⟨hkind, hscope, hreference⟩
  · split
    · exact ⟨hkind, hscope, hreference⟩
    · exact hother
  · exact hother

theorem ArgumentEntry.typed_accept {a : ArgumentEntry} (ha : (Construct.argument a).Typed D)
    (hitem : item.Typed D replaced) : (Construct.argument (a.accept item place).1).Typed D := by
  unfold accept
  split
  · split <;> exact ha
  · intro v hv
    rcases Option.or_eq_some_iff.1 hv with hv | ⟨-, hv⟩
    · exact hitem.value? v hv
    · exact ha v hv

theorem ArgumentEntries.typed_accept {l : ArgumentEntries} (hl : (Construct.arguments l).Typed D)
    (hitem : item.Typed D replaced) : (Construct.arguments (l.accept item).1).Typed D := by
  unfold accept
  split
  · exact List.forall_mem_append.2 ⟨hl, List.forall_mem_singleton.2 hitem⟩
  · exact hl

theorem Assignment.typed_accept {a : Assignment} (ha : a.value.All D.type)
    (hitem : item.Typed D replaced) : (a.accept item place).1.value.All D.type := by
  unfold accept
  split
  · exact ha
  · exact hitem.getD ha

theorem Binary.typed_accept {b : Binary} (hb : (Construct.binary b).Typed D)
    (hitem : item.Typed D replaced) : (Construct.binary (b.accept item place).1).Typed D := by
  unfold accept
  split
  · split <;> exact hb
  · split
    next types htypes =>
      split
      · exact ⟨hb.1, hitem.types? _ htypes⟩
      · exact ⟨hitem.types? _ htypes, hb.2⟩
    · exact hb

theorem Unary.typed_accept {u : Unary} (hu : u.operand.All D.type) (hitem : item.Typed D replaced) :
    (u.accept item).1.operand.All D.type := by
  unfold accept
  split
  · exact hu
  · exact hitem.getD hu

theorem Cast.typed_accept {c : Cast} (hc : c.types.All D.type) (hitem : item.Typed D replaced) :
    (c.accept item place).1.types.All D.type := by
  unfold accept
  split
  · split
    · exact hitem
    · exact hc
  · exact hc

theorem Conditional.typed_accept {c : Conditional} (hc : (Construct.conditional c).Typed D)
    (hitem : item.Typed D replaced) :
    (Construct.conditional (c.accept item place).1).Typed D := by
  obtain ⟨hcondition, hbody, halternative⟩ := hc
  unfold accept
  split
  next types htypes =>
    have hall := hitem.types? _ htypes
    unfold Conditional.place
    split
    · exact ⟨hall, hbody, halternative⟩
    · refine ⟨hcondition, ?_, halternative⟩
      rintro u ⟨⟩
      exact hall
    · exact ⟨hcondition, hbody, hall⟩
    · exact ⟨hcondition, hbody, halternative⟩
  · exact ⟨hcondition, hbody, halternative⟩

theorem ElementLoop.yields_accept (l : ElementLoop) (item : Item) (hs : s.Typed D) :
    Yields D (l.accept item) s fun _ => True := by
  unfold accept
  split
  · exact ⟨trivial, hs⟩
  · split
    · split
      · exact ⟨trivial, hs.bind _ TypeUnion.all_empty⟩
      · exact ⟨trivial, hs⟩
    · exact ⟨trivial, hs⟩

theorem CatchClause.yields_accept {c : CatchClause} (hc : c.types.All D.type)
    (hitem : item.Typed D replaced) (hs : s.Typed D) :
    Yields D (c.accept item place) s fun found => found.1.types.All D.type := by
  unfold accept
  split
  · split
    · exact ⟨TypeUnion.All.merge hc hitem, hs⟩
    · exact ⟨hc, hs⟩
  · split
    · split
      · exact ⟨hc, hs.bind _ hc⟩
      · exact ⟨hc, hs⟩
    · exact ⟨hc, hs⟩

theorem yields_acceptGlobal (item : Item) (hs : s.Typed D) :
    Yields D (acceptGlobal item) s fun _ => True := by
  unfold acceptGlobal
  split
  · exact ⟨trivial, hs⟩
  · exact ⟨trivial, hs.bind _ (hs.globals.getD _)⟩

/-- Items that bear no name are as asked wherever they stand. -/
theorem Item.Typed.of_false (hitem : item.Typed D replaced) (h : replaced = false) :
    item.Typed D false := h ▸ hitem

theorem Construct.yields_accept (hD : D.Lawful) {construct : Construct} (hc : construct.Typed D)
    (hitem : item.Typed D replaced) (hsuits : construct.Suits D replaced item place s)
    (hs : s.Typed D) :
    Yields D (construct.accept item place) s fun found => found.1.Typed D := by
  have himport (h : construct.isImport = true) : item.Typed D false :=
    hitem.of_false (Bool.eq_false_iff.2 fun hreplaced => by
      rw [hsuits.notImport hreplaced] at h
      cases h)
  refine .ofGet ?_
  cases construct with
  | namespaceStatement n => exact (n.yields_accept item place hs).map fun _ _ => trivial
  | useStatement u => exact .pure (UseStatement.typed_accept hc (himport rfl)) hs
  | useName u => exact .pure (UseName.typed_accept hc (himport rfl)) hs
  | «alias» name? =>
    cases item with
    | _ => exact .pure trivial hs
  | classBody c =>
    refine (c.yields_accept hD hitem (fun hfield => ?_) hs).map fun _ _ => trivial
    exact Bool.eq_false_iff.2 fun hreplaced => by cases hsuits.notName hreplaced hfield
  | nameList l => exact .pure (NameList.typed_accept hD hc hitem hsuits.inside hs) hs
  | enumCase e => exact .pure trivial hs
  | callable c =>
    exact (Callable.yields_accept hD hc hitem (fun h => hsuits.parameter h _ rfl) hs).map
      fun _ h => h
  | captures c => exact .pure trivial hs
  | parameter p => exact (ParameterEntry.yields_accept hc hitem hs).map fun _ h => h
  | typeHint t => exact .pure (TypeHint.typed_accept hD hc hitem hsuits.inside hs) hs
  | properties g => exact .pure (PropertyGroup.typed_accept hc hitem) hs
  | constants g => exact .pure (ConstantGroup.typed_accept hc hitem) hs
  | element e => exact .pure (ElementEntry.typed_accept hD hc hitem hs) hs
  | call c => exact .pure (FunctionCall.typed_accept hc hitem) hs
  | creation c => exact .pure (Creation.typed_accept hD hc hitem hsuits.inside hs) hs
  | member m =>
    refine .pure (MemberAccess.typed_accept hD hc hitem hsuits.inside ?_ hs) hs
    exact fun hchild => hsuits.accessed hchild rfl
  | arguments l => exact .pure (ArgumentEntries.typed_accept hc hitem) hs
  | argument a => exact .pure (ArgumentEntry.typed_accept hc hitem) hs
  | assignment a => exact .pure (Assignment.typed_accept hc hitem) hs
  | returned v => exact .pure (hitem.getD hc) hs
  | group v => exact .pure (hitem.getD hc) hs
  | literal type => exact .pure hc hs
  | binary b => exact .pure (Binary.typed_accept hc hitem) hs
  | unary u => exact .pure (Unary.typed_accept hc hitem) hs
  | cast c => exact .pure (Cast.typed_accept hc hitem) hs
  | conditional c => exact .pure (Conditional.typed_accept hc hitem) hs
  | loop l => exact (l.yields_accept item hs).map fun _ _ => trivial
  | catchClause c => exact (CatchClause.yields_accept hc hitem hs).map fun _ h => h
  | globals => exact (yields_acceptGlobal item hs).map fun _ _ => trivial

end Accept

/-! ## Being left -/

theorem Item.passed_value {types : TypeUnion} (h : types.All D.type) (range : Range) :
    (Item.value types range).Passed D false := ⟨h, rfl, rfl, nofun⟩

theorem Item.passed_symbol {parameter : Bool} {x : Symbol} (h : ∀ t ∈ x.typeNames, D.type t) :
    (Item.symbol x).Passed D parameter := ⟨h, rfl, rfl, nofun⟩

section Finish
variable {s : State}

theorem Discipline.Lawful.builtin (hD : D.Lawful) {name : String} (h : name ∈ inferredTypes) :
    (builtin name).All D.type := TypeUnion.all_single (hD.inferred name h)

theorem NamespaceStatement.yields_finish (n : NamespaceStatement) (hs : s.Typed D) :
    Yields D n.finish s fun items => ∀ item ∈ items, item.Passed D false := by
  unfold finish
  split
  · exact .afterModify (.pure (List.forall_mem_nil _) hs.noImports)
  · exact .pure (List.forall_mem_nil _) hs

theorem UseStatement.yields_finish (hD : D.Lawful) {u : UseStatement}
    (hu : (Construct.useStatement u).Typed D) (hs : s.Typed D) :
    Yields D u.finish s fun items => ∀ item ∈ items, item.Passed D false := by
  have hregister {c : UseClause} {s : State} (hc : D.spelled false c.name = true)
      (hs : s.Typed D) : Yields D (u.register c) s (Item.Passed D false) := by
    unfold register
    have hs' := hs.addImport ((c.kind?.or u.kind?).getD .class) (hD.target u c hc) c.alias?
    refine .afterModify (.ofGet (.pure ?_ hs'))
    refine ⟨⟨⟨fun _ => TypeUnion.all_single (hD.absolute _), nofun⟩, TypeUnion.all_empty⟩,
      rfl, if_neg ?_, nofun⟩
    generalize (c.kind?.or u.kind?).getD .class = kind
    intro hvariable
    cases kind <;> cases hvariable
  unfold finish
  change ∀ c ∈ u.clauses, _ at hu
  generalize u.clauses = clauses at hu
  induction clauses generalizing s with
  | nil => exact .pure (List.forall_mem_nil _) hs
  | cons c rest ih =>
    obtain ⟨hc, hrest⟩ := List.forall_mem_cons.1 hu
    rw [List.mapM_cons]
    refine (hregister hc hs).bind fun item s hitem hs => ?_
    exact (ih hs hrest).bind fun items s hitems hs =>
      .pure (List.forall_mem_cons.2 ⟨hitem, hitems⟩) hs

theorem UseName.passed_finish {u : UseName} (hu : (Construct.useName u).Typed D) (range : Range) :
    ∀ item ∈ u.finish range, item.Passed D false := by
  unfold finish
  split
  next name nameRange hname => exact List.forall_mem_singleton.2 ⟨hu _ hname, rfl, rfl, nofun⟩
  · exact List.forall_mem_nil _

theorem ClassBody.yields_finish (hD : D.Lawful) (c : ClassBody) (range : Range) (hs : s.Typed D) :
    Yields D (c.finish range) s fun items => ∀ item ∈ items, item.Passed D false := by
  unfold finish
  have hs' := hs.closeClass
  refine .ofGet (.afterSet ?_)
  split
  · refine .pure (List.forall_mem_singleton.2 (Item.passed_value ?_ range)) hs'
    refine TypeUnion.all_ofList (List.forall_mem_map.2 fun name hname => hD.ofOwner name ?_)
    obtain ⟨context, hcontext, hparent⟩ := Option.bind_eq_some_iff.1 (Option.mem_toList.1 hname)
    exact hs.parents context (List.mem_of_mem_head? hcontext) name hparent
  · exact .pure (List.forall_mem_nil _) hs'
  · exact .pure (List.forall_mem_singleton.2 (Item.passed_symbol (List.forall_mem_nil _))) hs'

theorem NameList.passed_finish (hD : D.Lawful) {l : NameList}
    (hl : (Construct.nameList l).Typed D) (s : State) :
    ∀ item ∈ l.finish s, item.Passed D false := by
  refine List.forall_mem_append.2 ⟨List.forall_mem_map.2 fun name hname => ?_, ?_⟩
  · exact passed_classReference hD s (hD.ofOwner _ (hl name hname)) _
  · exact List.forall_mem_singleton.2 ⟨List.forall_mem_map.2 hl, rfl, rfl, nofun⟩

theorem EnumCase.passed_finish (hD : D.Lawful) (e : EnumCase) (range : Range) (hs : s.Typed D) :
    ∀ item ∈ e.finish range s, item.Passed D false := by
  unfold finish
  split
  next hscope =>
    refine List.forall_mem_singleton.2 (Item.passed_symbol ?_)
    exact List.forall_mem_singleton.2 (hD.ofOwner _ (hs.owner hscope))
  · exact List.forall_mem_nil _

theorem Callable.all_signature (hD : D.Lawful) {c : Callable} (hc : (Construct.callable c).Typed D)
    (hsaid : ∀ t ∈ (Construct.callable c).said, D.documented s.memberScope?.isSome t = true)
    (hs : s.Typed D) : ∀ t ∈ (c.signature s).typeNames, D.type t := by
  refine List.forall_mem_append.2 ⟨fun t ht => ?_, ?_⟩
  · obtain ⟨p, hp, ht⟩ := List.mem_flatMap.1 ht
    exact hc.1 p hp t ht
  · exact (hc.2.1.merge (hs.resolveDocumented hD hsaid)).merge hc.2.2

theorem Callable.yields_finish (hD : D.Lawful) {c : Callable} (hc : (Construct.callable c).Typed D)
    (hsaid : ∀ t ∈ (Construct.callable c).said, D.documented s.memberScope?.isSome t = true)
    (range : Range) (hs : s.Typed D) :
    Yields D (c.finish range) s fun items => ∀ item ∈ items, item.Passed D false := by
  have hmember : s.closeScope.memberScope? = s.memberScope? := by
    unfold State.closeScope
    split <;> rfl
  have hsignature := all_signature hD hc (hmember ▸ hsaid) hs.closeScope
  have hclosure := Item.passed_value (TypeUnion.all_single hD.closure) range
  unfold finish
  refine .afterModify (.ofGet ?_)
  split
  · exact .pure (List.forall_mem_singleton.2 hclosure) hs.closeScope
  · exact .pure (List.forall_mem_singleton.2 hclosure) hs.closeScope
  · exact .pure (List.forall_mem_nil _) hs.closeScope
  · exact .pure (List.forall_mem_singleton.2 (Item.passed_symbol hsignature)) hs.closeScope
  · split
    · exact .pure (List.forall_mem_nil _) hs.closeScope
    · exact .pure (List.forall_mem_singleton.2 (Item.passed_symbol hsignature)) hs.closeScope

theorem Captures.yields_finish (c : Captures) (hs : s.Typed D) :
    Yields D c.finish s fun items => ∀ item ∈ items, item.Passed D false := by
  have hcapture {s : State} (hs : s.Typed D) (name : String) :
      (Captures.capture s name).Typed D := by
    unfold capture
    split
    · exact hs
    next scope outer hscopes =>
      have houter := hs.scopes
      rw [hscopes] at houter
      refine hs.bind name (VariableScope.All.getD ?_ name)
      cases outer with
      | nil => exact hs.globals
      | cons x rest => exact houter x (List.mem_cons_of_mem _ List.mem_cons_self)
  have hall : (c.names.foldl capture s).Typed D := by
    generalize c.names = names
    induction names generalizing s with
    | nil => exact hs
    | cons name rest ih => exact ih (hcapture hs name)
  exact .afterModify (.pure (List.forall_mem_singleton.2 ⟨trivial, rfl, rfl, nofun⟩) hall)

theorem ParameterEntry.passed_finish {p : ParameterEntry} (hp : p.types.All D.type) (s : State) :
    ∀ item ∈ p.finish s, item.Passed D true := by
  unfold finish
  split
  · exact List.forall_mem_nil _
  · simp only
    split
    · exact List.forall_mem_singleton.2 ⟨hp, rfl, rfl, fun _ => rfl⟩
    · split
      · exact List.forall_mem_cons.2
          ⟨Item.passed_symbol hp, List.forall_mem_singleton.2 ⟨hp, rfl, rfl, fun _ => rfl⟩⟩
      · exact List.forall_mem_singleton.2 ⟨hp, rfl, rfl, fun _ => rfl⟩

theorem TypeHint.passed_finish (hD : D.Lawful) {h : TypeHint} (hh : (Construct.typeHint h).Typed D)
    (range : Range) : ∀ item ∈ h.finish range, item.Passed D false := by
  refine List.forall_mem_append.2 ⟨hh.2, List.forall_mem_singleton.2 ⟨?_, rfl, rfl, nofun⟩⟩
  change TypeUnion.All _ _
  split
  · exact hh.1.push (hD.inferred "null" (by decide))
  · exact hh.1

theorem ElementEntry.passed_finish {e : ElementEntry} (he : (Construct.element e).Typed D)
    (range : Range) : ∀ item ∈ e.finish range, item.Passed D false := by
  unfold finish
  split
  · refine List.forall_mem_singleton.2 ⟨TypeUnion.All.getD (fun u hu => ?_) TypeUnion.all_empty,
      rfl, rfl, nofun⟩
    obtain ⟨v, hv, rfl⟩ := Option.map_eq_some_iff.1 hu
    exact he v hv
  · exact List.forall_mem_nil _

theorem PropertyGroup.passed_finish (hD : D.Lawful) {g : PropertyGroup}
    (hg : (Construct.properties g).Typed D)
    (hsaid : ∀ t ∈ (Construct.properties g).said, D.documented s.memberScope?.isSome t = true)
    (hs : s.Typed D) : ∀ item ∈ g.finish s, item.Passed D false := by
  unfold finish
  split
  · exact List.forall_mem_nil _
  · refine List.forall_mem_map.2 fun e he => Item.passed_symbol ?_
    exact (hg.1.merge (hs.resolveDocumented hD hsaid)).merge (hg.2 e he)

theorem ConstantGroup.passed_finish {g : ConstantGroup} (hg : (Construct.constants g).Typed D)
    (s : State) : ∀ item ∈ g.finish s, item.Passed D false := by
  unfold finish
  split
  · exact List.forall_mem_nil _
  · split
    · exact List.forall_mem_map.2 fun e he => Item.passed_symbol (hg e he)
    · exact List.forall_mem_map.2 fun e he => Item.passed_symbol (hg e he)

theorem FunctionCall.passed_finish (hD : D.Lawful) {c : FunctionCall}
    (hc : (Construct.call c).Typed D) (range : Range) (hs : s.Typed D) :
    ∀ item ∈ c.finish range s, item.Passed D false := by
  have hplain (name : String) (callee : Range) :
      ∀ item ∈ c.plain name callee s, item.Passed D false := by
    refine List.forall_mem_append.2 ⟨?_, List.forall_mem_singleton.2 ⟨⟨⟨fun _ => ?_, nofun⟩, ?_⟩,
      rfl, rfl, nofun⟩⟩
    · split
      · split
        · exact List.forall_mem_nil _
        · refine List.forall_mem_singleton.2 (passed_argumentReference (fun _ => ?_) ?_ _ s)
          · exact TypeUnion.all_single (hD.absolute _)
          · exact fun u hu => by cases hu
      · exact List.forall_mem_nil _
    · exact TypeUnion.all_single (hD.absolute _)
    · exact hs.functionTypes _
  have hdefined : ∀ constant ∈ c.defined? range s, ∀ t ∈ constant.types.types, D.type t := by
    intro constant hconstant
    obtain ⟨first, quoted, -, -, -, rfl⟩ := exists_of_defined? hconstant
    refine TypeUnion.All.getD (fun u hu => ?_) TypeUnion.all_empty
    obtain ⟨a, ha, rfl⟩ := Option.map_eq_some_iff.1 hu
    refine hs.resolveTypes hD ?_
    cases hl : c.arguments? with
    | none =>
      rw [hl] at ha
      cases ha
    | some l =>
      rw [hl] at ha
      exact hc l hl a (List.mem_of_getElem? ha)
  unfold finish
  split
  · exact List.forall_mem_singleton.2 (Item.passed_value TypeUnion.all_empty range)
  · split
    next constant hconstant =>
      rw [Option.ite_none_right_eq_some] at hconstant
      refine List.forall_mem_cons.2 ⟨Item.passed_symbol (hdefined constant hconstant.2), ?_⟩
      exact List.forall_mem_singleton.2 (Item.passed_value (hD.builtin (by decide)) range)
    · exact hplain _ _

theorem Creation.passed_finish (hD : D.Lawful) {c : Creation} (hc : (Construct.creation c).Typed D)
    (range : Range) (s : State) : ∀ item ∈ c.finish range s, item.Passed D false := by
  obtain ⟨hclass, htypes⟩ := hc
  unfold finish
  split
  · exact List.forall_mem_singleton.2 (Item.passed_value htypes range)
  next name nameRange hname =>
    split
    · exact List.forall_mem_singleton.2 (Item.passed_value htypes range)
    · refine List.forall_mem_append.2 ⟨List.forall_mem_map.2 fun l _ => ?_, ?_⟩
      · refine passed_argumentReference (fun hnone => by cases hnone) ?_ l s
        rintro u ⟨⟩
        exact htypes.mono hD.used
      · refine List.forall_mem_singleton.2 ⟨⟨⟨fun _ => ?_, nofun⟩, htypes⟩, rfl, rfl, nofun⟩
        exact TypeUnion.all_single (hD.used _ (hclass _ hname))

theorem MemberAccess.passed_finish (hD : D.Lawful) {m : MemberAccess}
    (hm : (Construct.member m).Typed D) (range : Range) (hs : s.Typed D) :
    ∀ item ∈ m.finish range s, item.Passed D false := by
  obtain ⟨hkind, hscope, hreference⟩ := hm
  have hall : (m.scope?.getD .empty).All D.used := TypeUnion.All.getD hscope TypeUnion.all_empty
  have hwithScope {r : Reference} (hr : r.kind.isMember = true) (hnone : r.scope? = none)
      {types : TypeUnion} (htypes : types.All D.type) :
      (Item.reference (r.withScope (m.scope?.getD .empty)) types).Passed D false := by
    have hkept : (r.withScope (m.scope?.getD .empty)).kind = r.kind := by
      unfold Reference.withScope
      split <;> rfl
    refine ⟨⟨⟨fun h => ?_, fun u hu => ?_⟩, htypes⟩, rfl, ?_, nofun⟩
    · rw [hkept] at h
      obtain ⟨htop, harguments, -⟩ := ReferenceKind.ne_of_isMember hr
      exact (h.elim htop fun h => harguments h.1).elim
    · unfold Reference.withScope at hu
      split at hu
      · rw [hnone] at hu
        cases hu
      · cases hu
        exact hall
    · refine if_neg ?_
      rw [hkept]
      exact (ReferenceKind.ne_of_isMember hr).2.2
  have hvalue (name : String) : TypeUnion.All D.type
      (if m.kind = .classConstant && Text.lowerAscii name = "class" then
        .single (.ofSource "string")
      else s.memberTypes (m.scope?.getD .empty) name m.kind) := by
    split
    · exact hD.builtin (by decide)
    · exact hs.memberTypes _ _ _
  refine List.forall_mem_append.2
    ⟨fun item hitem => hreference item (Option.mem_toList.1 hitem), ?_⟩
  split
  · refine List.forall_mem_singleton.2 ?_
    unfold unnamed
    split
    · exact hwithScope rfl rfl TypeUnion.all_empty
    · exact Item.passed_value TypeUnion.all_empty range
  · refine List.forall_mem_append.2 ⟨List.forall_mem_map.2 fun l _ => ?_, ?_⟩
    · refine passed_argumentReference (fun hnone => by cases hnone) ?_ l s
      rintro u ⟨⟩
      exact hall
    · exact List.forall_mem_singleton.2 (hwithScope hkind rfl (hvalue _))

theorem Assignment.yields_finish (hD : D.Lawful) {a : Assignment} (ha : a.value.All D.type)
    (hsaid : ∀ t ∈ (Construct.assignment a).said, D.documented s.memberScope?.isSome t = true)
    (range : Range) (hs : s.Typed D) :
    Yields D (a.finish range) s fun items => ∀ item ∈ items, item.Passed D false := by
  have hvalue := hs.resolveTypes hD ha
  have hdocumented (target : String) : (s.resolveTypes (a.documented target)).All D.type := by
    refine hs.resolveDocumented hD fun t ht => hsaid t ?_
    unfold documented at ht
    simp only [Construct.said]
    split at ht
    next tag htag =>
      rw [htag]
      split at ht
      · exact ht
      · cases ht
    · cases ht
  unfold finish
  refine .ofGet ?_
  split
  · exact .pure (List.forall_mem_singleton.2 (Item.passed_value hvalue range)) hs
  next target _ =>
    have htypes := hvalue.merge (hdocumented target)
    exact .afterSet (.pure (List.forall_mem_singleton.2 (Item.passed_value htypes range))
      (hs.bind target htypes))

theorem Binary.all_types (hD : D.Lawful) {b : Binary} (hb : (Construct.binary b).Typed D) :
    b.types.All D.type := by
  have hnumeric : (numeric b.left b.right).All D.type := by
    unfold numeric
    split
    · exact hD.builtin (by decide)
    · split
      · exact hD.builtin (by decide)
      · exact TypeUnion.All.push (hD.builtin (by decide)) (hD.inferred "float" (by decide))
  unfold types
  split
  · exact TypeUnion.all_empty
  · split
    · exact hD.builtin (by decide)
    · split
      · exact hD.builtin (by decide)
      · split
        · exact hb.1.merge hb.2
        · split
          · exact hD.builtin (by decide)
          · split
            · exact hnumeric
            · exact TypeUnion.all_empty

theorem Unary.all_types (hD : D.Lawful) {u : Unary} (hu : u.operand.All D.type) :
    u.types.All D.type := by
  unfold types
  split
  · exact hD.builtin (by decide)
  · split
    · exact hD.builtin (by decide)
    · exact hu

theorem Construct.yields_finish (hD : D.Lawful) {construct : Construct} (hc : construct.Typed D)
    (hsaid : ∀ t ∈ construct.said, D.documented s.memberScope?.isSome t = true) (range : Range)
    (hs : s.Typed D) :
    Yields D (construct.finish range) s fun items =>
      ∀ item ∈ items, item.Passed D construct.isParameter := by
  have hvalue {types : TypeUnion} (htypes : types.All D.type) :
      ∀ item ∈ [Item.value types range], item.Passed D false :=
    List.forall_mem_singleton.2 (Item.passed_value htypes range)
  refine .ofGet ?_
  cases construct with
  | namespaceStatement n => exact n.yields_finish hs
  | useStatement u => exact UseStatement.yields_finish hD hc hs
  | useName u => exact .pure (UseName.passed_finish hc range) hs
  | «alias» name? =>
    cases name? with
    | none => exact .pure (List.forall_mem_nil _) hs
    | some name => exact .pure (List.forall_mem_singleton.2 ⟨trivial, rfl, rfl, nofun⟩) hs
  | classBody c => exact c.yields_finish hD range hs
  | nameList l => exact .pure (NameList.passed_finish hD hc s) hs
  | enumCase e => exact .pure (e.passed_finish hD range hs) hs
  | callable c => exact Callable.yields_finish hD hc hsaid range hs
  | captures c => exact c.yields_finish hs
  | parameter p => exact .pure (ParameterEntry.passed_finish hc s) hs
  | typeHint t => exact .pure (TypeHint.passed_finish hD hc range) hs
  | properties g => exact .pure (PropertyGroup.passed_finish hD hc hsaid hs) hs
  | constants g => exact .pure (ConstantGroup.passed_finish hc s) hs
  | element e => exact .pure (ElementEntry.passed_finish hc range) hs
  | call c => exact .pure (FunctionCall.passed_finish hD hc range hs) hs
  | creation c => exact .pure (Creation.passed_finish hD hc range s) hs
  | member m => exact .pure (MemberAccess.passed_finish hD hc range hs) hs
  | arguments l => exact .pure (List.forall_mem_singleton.2 ⟨hc, rfl, rfl, nofun⟩) hs
  | argument a =>
    refine .pure (List.forall_mem_singleton.2 ⟨?_, rfl, rfl, nofun⟩) hs
    change TypeUnion.All _ (a.value?.getD _).2
    cases hv : a.value? with
    | none => exact TypeUnion.all_empty
    | some v => exact hc v hv
  | assignment a => exact Assignment.yields_finish hD hc hsaid range hs
  | returned v => exact .pure (List.forall_mem_singleton.2 ⟨hc, rfl, rfl, nofun⟩) hs
  | group v => exact .pure (hvalue hc) hs
  | literal type => exact .pure (hvalue (TypeUnion.all_single hc)) hs
  | binary b => exact .pure (hvalue (Binary.all_types hD hc)) hs
  | unary u => exact .pure (hvalue (Unary.all_types hD hc)) hs
  | cast c => exact .pure (hvalue hc) hs
  | conditional c => exact .pure (hvalue ((TypeUnion.All.getD hc.2.1 hc.1).merge hc.2.2)) hs
  | loop l => exact .pure (List.forall_mem_nil _) hs
  | catchClause c => exact .pure (List.forall_mem_nil _) hs
  | globals => exact .pure (List.forall_mem_nil _) hs

end Finish

end PhpIndex.Extract
