import PhpIndex.Extract.Construct
import PhpIndex.Proofs.Extract.Sound
import PhpIndex.Proofs.Extract.Steps

/-!
# Sound constructs

What each construct keeps of the sound items that it takes up is sound, and so are the items that
it turns into. Types from documentation comments need no care: they enter resolved only.
-/
namespace PhpIndex.Extract
variable {uri : String} {size : Nat}

/-- Whether the action, run in a sound state, answers as the condition says and keeps the state
sound and the scopes where they are. -/
def Ensures (uri : String) (size : Nat) (action : StateM State α) (post : α → Prop) : Prop :=
  ∀ s : State, s.Sound uri size →
    post (action.run s).1 ∧ (action.run s).2.Sound uri size ∧ s.Keeps (action.run s).2

namespace Ensures
variable {action : StateM State α} {post : α → Prop}

theorem pure {a : α} (h : post a) : Ensures uri size (Pure.pure a) post := fun s hs =>
  ⟨h, hs, .refl s⟩

theorem mono {post' : α → Prop} (h : Ensures uri size action post)
    (hpost : ∀ a, post a → post' a) : Ensures uri size action post' := fun s hs =>
  ⟨hpost _ (h s hs).1, (h s hs).2⟩

theorem bind {next : α → StateM State β} {post' : β → Prop} (h : Ensures uri size action post)
    (hnext : ∀ a, post a → Ensures uri size (next a) post') :
    Ensures uri size (action >>= next) post' := by
  intro s hs
  obtain ⟨hpost, hsound, hkeeps⟩ := h s hs
  obtain ⟨hpost', hsound', hkeeps'⟩ := hnext _ hpost _ hsound
  exact ⟨hpost', hsound', hkeeps.trans hkeeps'⟩

theorem get : Ensures uri size MonadState.get (State.Sound uri size) := fun s hs =>
  ⟨hs, hs, .refl s⟩

theorem modify {f : State → State}
    (h : ∀ s : State, s.Sound uri size → (f s).Sound uri size ∧ s.Keeps (f s)) :
    Ensures uri size (modify f) fun _ => True := fun s hs => ⟨trivial, h s hs⟩

theorem map {f : α → β} {post' : β → Prop} (h : Ensures uri size action post)
    (hf : ∀ a, post a → post' (f a)) : Ensures uri size (f <$> action) post' := fun s hs =>
  ⟨hf _ (h s hs).1, (h s hs).2⟩

end Ensures

namespace Item

theorem Sound.types {item : Item} (h : item.Sound uri size) : ∀ u ∈ item.types?, u.Tidy := by
  intro u hu
  cases item with
  | value types range =>
    cases hu
    exact h.1
  | reference r value =>
    obtain ⟨p, hp, rfl⟩ := Option.map_eq_some_iff.1 hu
    obtain ⟨range, -, rfl⟩ := Option.map_eq_some_iff.1 hp
    exact h.2
  | name text range =>
    cases hu
    exact TypeUnion.tidy_empty
  | _ => cases hu

theorem Sound.getD {item : Item} (h : item.Sound uri size) {other : TypeUnion}
    (hother : other.Tidy) : (item.types?.getD other).Tidy := by
  cases htypes : item.types? with
  | none => exact hother
  | some u => exact h.types u htypes

end Item

/-! ## Names and imports -/

namespace UseName

def Sound (size : Nat) (u : UseName) : Prop := ∀ n ∈ u.name?, n.2.Within size

theorem sound_accept {u : UseName} (h : u.Sound size) {item : Item} (hitem : item.Sound uri size)
    (place : Place) : (u.accept item place).1.Sound size := by
  unfold accept
  split
  · split
    · exact h
    · split <;> exact h
  · split
    · exact h
    · split
      · rintro n ⟨⟩
        exact hitem
      · exact h
  · exact h
  · exact h

theorem sound_finish {u : UseName} (h : u.Sound size) {range : Range}
    (hrange : range.Within size) : ∀ item ∈ u.finish range, item.Sound uri size := by
  unfold finish
  split
  next name nameRange hname =>
    intro item hitem
    rw [List.mem_singleton.1 hitem]
    unfold Item.Sound
    simp only
    split
    · exact hrange
    · exact h _ hname
  · exact fun _ hitem => absurd hitem List.not_mem_nil

end UseName

namespace UseStatement

def Sound (size : Nat) (u : UseStatement) : Prop := ∀ c ∈ u.clauses, c.range.Within size

theorem sound_accept {u : UseStatement} (h : u.Sound size) {item : Item}
    (hitem : item.Sound uri size) : (u.accept item).1.Sound size := by
  unfold accept
  split
  · split <;> exact h
  · exact h
  · intro c hc
    rcases List.mem_append.1 hc with hc | hc
    · exact h c hc
    · exact List.mem_singleton.1 hc ▸ hitem
  · exact h

theorem ensures_finish {u : UseStatement} (h : u.Sound size) :
    Ensures uri size u.finish fun items => ∀ item ∈ items, item.Sound uri size := by
  have hregister {c : UseClause} (hc : c.range.Within size) :
      Ensures uri size (u.register c) fun item => item.Sound uri size := by
    unfold register
    refine Ensures.bind (Ensures.modify fun s hs => ⟨{ hs with }, rfl, rfl⟩) fun _ _ => ?_
    refine Ensures.get.bind fun s hs => Ensures.pure ?_
    refine ⟨⟨⟨c.range, hs.locate _, hc⟩, nofun,
      .inl (TypeUnion.tidy_single (TypeName.steady_ofAbsolute _)), ?_, ?_⟩,
      TypeUnion.tidy_empty⟩ <;>
    · intro hkind
      cases hk : (c.kind?.or u.kind?).getD .class <;> rw [hk] at hkind <;> cases hkind
  unfold finish
  unfold Sound at h
  generalize u.clauses = clauses at h
  induction clauses with
  | nil => exact Ensures.pure fun _ hitem => absurd hitem List.not_mem_nil
  | cons c rest ih =>
    rw [List.mapM_cons]
    refine (hregister (h c List.mem_cons_self)).bind fun item hitem => ?_
    refine (ih fun c' hc' => h c' (List.mem_cons_of_mem c hc')).bind fun items hitems => ?_
    refine Ensures.pure fun i hi => ?_
    rcases List.mem_cons.1 hi with rfl | hi
    · exact hitem
    · exact hitems i hi

end UseStatement

namespace NameList

def Sound (size : Nat) (l : NameList) : Prop := ∀ n ∈ l.names, n.2.Within size

theorem sound_accept {l : NameList} (h : l.Sound size) {item : Item} (hitem : item.Sound uri size)
    (place : Place) (s : State) : (l.accept item place s).1.Sound size := by
  unfold accept
  split
  · split
    · intro n hn
      rcases List.mem_append.1 hn with hn | hn
      · exact h n hn
      · rw [List.mem_singleton.1 hn]
        exact hitem
    · exact h
  · exact h

theorem sound_finish {l : NameList} (h : l.Sound size) {s : State} (hs : s.Sound uri size) :
    ∀ item ∈ l.finish s, item.Sound uri size := by
  intro item hitem
  rcases List.mem_append.1 hitem with hitem | hitem
  · obtain ⟨n, hn, rfl⟩ := List.mem_map.1 hitem
    exact hs.classReference (TypeName.steady_ofAbsolute _) (h n hn)
  · rw [List.mem_singleton.1 hitem]
    trivial

end NameList

/-! ## Classes and functions -/

namespace ClassBody

theorem keeps_modifyClass (s : State) (f : ClassContext → ClassContext) :
    s.Keeps (s.modifyClass f) := by
  unfold State.modifyClass
  split <;> exact ⟨rfl, rfl⟩

theorem sound_modifyClass {s : State} (h : s.Sound uri size) (f : ClassContext → ClassContext) :
    (s.modifyClass f).Sound uri size := by
  unfold State.modifyClass
  split
  · exact h
  · exact { h with }

theorem ensures_start (sort? : Option ClassSort) :
    Ensures uri size (start sort?) fun _ => True :=
  Ensures.bind (Ensures.modify fun _ hs => ⟨{ hs with }, rfl, rfl⟩) fun _ _ => Ensures.pure trivial

theorem ensures_accept (c : ClassBody) (item : Item) (place : Place) :
    Ensures uri size (c.accept item place) fun _ => True := by
  have hmodify (f : ClassContext → ClassContext) :
      Ensures uri size (modify fun s => s.modifyClass f) fun _ => True :=
    Ensures.modify fun s hs => ⟨sound_modifyClass hs f, keeps_modifyClass s f⟩
  unfold accept
  split
  · split
    · refine Ensures.bind Ensures.get fun _ _ => ?_
      exact (hmodify _).bind fun _ _ => Ensures.pure trivial
    · exact Ensures.pure trivial
  next role names =>
    have hnames : Ensures uri size (c.acceptNames names role) fun _ => True := by
      cases role with
      | parents => exact (hmodify _).bind fun _ _ => Ensures.pure trivial
      | interfaces => exact Ensures.pure trivial
      | traits => exact Ensures.pure trivial
    exact hnames.bind fun _ _ => Ensures.pure trivial
  · exact Ensures.pure trivial
  · split <;> exact Ensures.pure trivial
  · exact Ensures.pure trivial

theorem run_finish (c : ClassBody) {range : Range} (hrange : range.Within size) {s : State}
    (h : s.Sound uri size) : ∃ items, (c.finish range).run s = (items, s.closeClass) ∧
      ∀ item ∈ items, item.Sound uri size := by
  simp only [finish, StateT.run_bind, StateT.run_get, StateT.run_set, pure_bind]
  split
  · refine ⟨_, rfl, List.forall_mem_singleton.2 ⟨TypeUnion.tidy_ofList fun t ht => ?_, hrange⟩⟩
    obtain ⟨name, -, rfl⟩ := List.mem_map.1 ht
    exact TypeName.steady_ofAbsolute name
  · exact ⟨_, rfl, List.forall_mem_nil _⟩
  · exact ⟨_, rfl, List.forall_mem_singleton.2 ⟨⟨range, h.locate range⟩, rfl, trivial, nofun⟩⟩

theorem ensures_finish (c : ClassBody) {range : Range} (hrange : range.Within size) :
    Ensures uri size (c.finish range) fun items => ∀ item ∈ items, item.Sound uri size := by
  intro s hs
  obtain ⟨items, hrun, hitems⟩ := c.run_finish hrange hs
  rw [hrun]
  exact ⟨hitems, { hs with }, rfl, rfl⟩

end ClassBody

theorem EnumCase.sound_finish (e : EnumCase) (range : Range) {s : State} (hs : s.Sound uri size) :
    ∀ item ∈ e.finish range s, item.Sound uri size := by
  unfold finish
  split
  next name scope _ _ =>
    refine List.forall_mem_singleton.2 ⟨⟨range, hs.locate range⟩, rfl, ?_, nofun⟩
    exact TypeUnion.tidy_single (TypeName.steady_ofAbsolute scope)
  · exact List.forall_mem_nil _

namespace Callable

structure Sound (c : Callable) : Prop where
  parameters : ∀ p ∈ c.parameters, p.types.Tidy ∧ p.location.Whole
  declared : c.declared.Tidy
  inferred : c.inferred.Tidy

theorem tidy_scopeFor (sort : CallableSort) (range : Range) {s : State} (hs : s.Sound uri size) :
    (scopeFor sort range s).Tidy := by
  have hempty := VariableScope.tidy_empty (s.locate range)
  unfold scopeFor
  simp only
  split
  · exact hempty
  · split
    · exact hempty.bind _ (TypeUnion.tidy_single (TypeName.steady_ofAbsolute _))
    · exact hempty
  · split
    next types htypes => exact hempty.bind _ (hs.innermost.get? types htypes)
    · exact hempty
  · exact hs.innermost

theorem location_scopeFor (sort : CallableSort) (range : Range) (s : State) :
    (scopeFor sort range s).location = s.locate range := by
  unfold scopeFor
  simp only
  split
  · rfl
  · split <;> rfl
  · split <;> rfl
  · rfl

theorem ensures_acceptParameter {c : Callable} (h : c.Sound) {p : Parameter}
    (hp : p.types.Tidy ∧ p.location.Whole) : Ensures uri size (c.acceptParameter p) Sound := by
  have hadd {p : Parameter} (hp : p.types.Tidy ∧ p.location.Whole) :
      Sound { c with parameters := c.parameters ++ [p] } :=
    { h with parameters := List.forall_mem_append.2 ⟨h.parameters, List.forall_mem_singleton.2 hp⟩ }
  unfold acceptParameter
  split
  next declared _ =>
    split
    · refine Ensures.bind Ensures.get fun s hs => ?_
      have htypes := s.tidy_resolveTypes declared
      refine Ensures.bind (Ensures.modify fun s' hs' => ?_) fun _ _ =>
        Ensures.pure (hadd ⟨htypes, hp.2⟩)
      exact ⟨hs'.bind p.name htypes, s'.keeps_bind p.name _⟩
    · exact Ensures.pure (hadd hp)
  · exact Ensures.pure (hadd hp)

theorem sound_acceptFragment {c : Callable} (h : c.Sound) {item : Item}
    (hitem : item.Sound uri size) (place : Place) : (c.acceptFragment item place).1.Sound := by
  unfold acceptFragment
  split
  · exact { h with inferred := h.inferred.merge (hitem.getD TypeUnion.tidy_empty) }
  · exact h

theorem ensures_accept {c : Callable} (h : c.Sound) {item : Item} (hitem : item.Sound uri size)
    (place : Place) : Ensures uri size (c.accept item place) fun r => r.1.Sound := by
  unfold accept
  split
  · split
    · exact Ensures.pure { h with }
    · exact Ensures.pure (sound_acceptFragment h hitem place)
  · split
    · exact Ensures.pure { h with }
    · exact Ensures.pure h
  · exact (ensures_acceptParameter h hitem).bind fun c hc => Ensures.pure hc
  · split
    · exact Ensures.pure { h with declared := h.declared.merge hitem.1 }
    · exact Ensures.pure h
  · exact Ensures.pure { h with inferred := h.inferred.merge hitem }
  · exact Ensures.pure h
  · exact Ensures.pure (sound_acceptFragment h hitem place)

theorem whole_signature {c : Callable} (h : c.Sound) (s : State) :
    ∀ g ∈ some (c.signature s), ∀ p ∈ g.parameters, p.location.Whole := by
  rintro g ⟨⟩ p hp
  exact (h.parameters p hp).2

theorem tidy_signature {c : Callable} (h : c.Sound) (s : State) : (c.signature s).Tidy :=
  ⟨fun p hp => (h.parameters p hp).1, (h.declared.merge (s.tidy_resolveTypes _)).merge h.inferred⟩

/-- When a function is left its scope is closed. -/
theorem run_finish {c : Callable} (h : c.Sound) {range : Range} (hrange : range.Within size)
    {s : State} (hs : s.Sound uri size) :
    ∃ items, (c.finish range).run s = (items, s.closeScope) ∧
      ∀ item ∈ items, item.Sound uri size := by
  have hlocate := hs.closeScope.locate range
  have hclosure : (Item.value (.single (.ofAbsolute "Closure")) range).Sound uri size :=
    ⟨TypeUnion.tidy_single (TypeName.steady_ofAbsolute _), hrange⟩
  simp only [finish, StateT.run_bind, StateT.run_get, StateT.run_modify, pure_bind]
  split
  · exact ⟨_, rfl, List.forall_mem_singleton.2 hclosure⟩
  · exact ⟨_, rfl, List.forall_mem_singleton.2 hclosure⟩
  · exact ⟨_, rfl, List.forall_mem_nil _⟩
  · exact ⟨_, rfl, List.forall_mem_singleton.2
      ⟨⟨range, hlocate⟩, rfl, tidy_signature h _, whole_signature h _⟩⟩
  · split
    · exact ⟨_, rfl, List.forall_mem_nil _⟩
    · exact ⟨_, rfl, List.forall_mem_singleton.2
        ⟨⟨range, hlocate⟩, rfl, tidy_signature h _, whole_signature h _⟩⟩

end Callable

namespace Captures

theorem sound_capture {s : State} (h : s.Sound uri size) (name : String) :
    (capture s name).Sound uri size ∧ s.Keeps (capture s name) := by
  unfold capture
  split
  · exact ⟨h, .refl s⟩
  next scope outer hscopes =>
    refine ⟨h.bind name ?_, s.keeps_bind name _⟩
    cases outer with
    | nil => exact h.globals.getD name
    | cons around rest =>
      have hmem : around ∈ s.scopes := hscopes ▸ List.mem_cons_of_mem _ List.mem_cons_self
      exact (h.scopes around hmem).getD name

theorem sound_captures (names : List String) {s : State} (h : s.Sound uri size) :
    (names.foldl capture s).Sound uri size ∧ s.Keeps (names.foldl capture s) := by
  induction names generalizing s with
  | nil => exact ⟨h, .refl s⟩
  | cons name rest ih =>
    obtain ⟨hsound, hkeeps⟩ := sound_capture h name
    obtain ⟨hrest, hkept⟩ := ih hsound
    exact ⟨hrest, hkeeps.trans hkept⟩

theorem ensures_finish (c : Captures) :
    Ensures uri size c.finish fun items => ∀ item ∈ items, item.Sound uri size :=
  (Ensures.modify fun _ hs => sound_captures c.names hs).bind fun _ _ =>
    Ensures.pure (List.forall_mem_singleton.2 trivial)

end Captures

namespace ParameterEntry

structure Sound (size : Nat) (p : ParameterEntry) : Prop where
  types : p.types.Tidy
  name : ∀ n ∈ p.name?, n.2.Within size

theorem sound_acceptFragment {p : ParameterEntry} (h : p.Sound size) (item : Item)
    (place : Place) (s : State) : (p.acceptFragment item place s).1.Sound size := by
  unfold acceptFragment
  split
  · split
    · exact { h with }
    · exact h
  · exact h

theorem ensures_accept {p : ParameterEntry} (h : p.Sound size) {item : Item}
    (hitem : item.Sound uri size) (place : Place) :
    Ensures uri size (p.accept item place) fun r => r.1.Sound size := by
  have hfragment : Ensures uri size (do return p.acceptFragment item place (← get))
      fun r => r.1.Sound size :=
    Ensures.get.bind fun s _ => Ensures.pure (sound_acceptFragment h item place s)
  unfold accept
  split
  · split
    · exact Ensures.pure { h with types := h.types.merge hitem.1 }
    · exact Ensures.pure h
  · split
    · exact Ensures.pure { h with }
    · split
      · exact Ensures.pure { h with }
      · exact Ensures.pure h
  · exact Ensures.pure { h with }
  next text range =>
    split
    · refine Ensures.bind (Ensures.modify fun s hs => ?_) fun _ _ => Ensures.pure ?_
      · exact ⟨hs.bind text h.types, s.keeps_bind text p.types⟩
      · refine { h with name := ?_ }
        rintro n ⟨⟩
        exact hitem
    · exact hfragment
  · exact hfragment

theorem sound_finish {p : ParameterEntry} (h : p.Sound size) {s : State}
    (hs : s.Sound uri size) : ∀ item ∈ p.finish s, item.Sound uri size := by
  unfold finish
  split
  · exact List.forall_mem_nil _
  next name range _ =>
    have hwhole : (s.locate range).Whole := .inr rfl
    simp only
    split
    · exact List.forall_mem_singleton.2 ⟨h.types, hwhole⟩
    · split
      · refine List.forall_mem_cons.2 ⟨⟨⟨range, hs.locate range⟩, rfl, h.types, nofun⟩, ?_⟩
        exact List.forall_mem_singleton.2 ⟨h.types, hwhole⟩
      · exact List.forall_mem_singleton.2 ⟨h.types, hwhole⟩

end ParameterEntry

namespace TypeHint

structure Sound (uri : String) (size : Nat) (t : TypeHint) : Prop where
  types : t.types.Tidy
  references : ∀ item ∈ t.references, item.Sound uri size

theorem sound_accept {t : TypeHint} (h : t.Sound uri size) {item : Item}
    (hitem : item.Sound uri size) (place : Place) {s : State} (hs : s.Sound uri size) :
    (t.accept item place s).1.Sound uri size := by
  unfold accept
  split
  · split
    · have hname := s.steady_resolveClass
      exact ⟨h.types.push (hname _), List.forall_mem_append.2
        ⟨h.references, List.forall_mem_singleton.2 (hs.classReference (hname _) hitem)⟩⟩
    · exact h
  · exact { h with types := h.types.merge hitem.1 }
  · split
    · exact { h with }
    · exact h
  · exact h

theorem sound_finish {t : TypeHint} (h : t.Sound uri size) {range : Range}
    (hrange : range.Within size) : ∀ item ∈ t.finish range, item.Sound uri size := by
  refine List.forall_mem_append.2 ⟨h.references, List.forall_mem_singleton.2 ⟨?_, hrange⟩⟩
  split
  · exact h.types.push (TypeName.steady_ofSource _)
  · exact h.types

end TypeHint

/-! ## Properties and constants -/

namespace ElementEntry

def Sound (e : ElementEntry) : Prop := ∀ v ∈ e.value?, v.2.Tidy

theorem sound_accept {e : ElementEntry} (h : e.Sound) (item : Item) (s : State) :
    (e.accept item s).1.Sound := by
  have hvalue : (e.acceptValue item s).1.Sound := by
    unfold acceptValue
    split
    · split
      · rintro v ⟨⟩
        exact s.tidy_resolveTypes _
      · exact h
    · exact h
  unfold accept
  split
  · split
    · exact h
    · exact hvalue
  · exact h
  · exact hvalue

theorem sound_finish {e : ElementEntry} (h : e.Sound) {range : Range}
    (hrange : range.Within size) : ∀ item ∈ e.finish range, item.Sound uri size := by
  unfold finish
  split
  · refine List.forall_mem_singleton.2 ⟨hrange, ?_⟩
    cases hvalue : e.value? with
    | none => exact TypeUnion.tidy_empty
    | some v => exact h v hvalue
  · exact List.forall_mem_nil _

end ElementEntry

namespace PropertyGroup

structure Sound (size : Nat) (g : PropertyGroup) : Prop where
  types : g.types.Tidy
  elements : ∀ e ∈ g.elements, e.range.Within size ∧ e.value.Tidy

theorem sound_withFlags {g : PropertyGroup} (h : g.Sound size) (item : Item) :
    (g.withFlags item).Sound size := by
  unfold withFlags
  generalize withModifier (g.modifiers, g.visibility) item = flags
  exact { h with }

theorem sound_accept {g : PropertyGroup} (h : g.Sound size) {item : Item}
    (hitem : item.Sound uri size) (place : Place) : (g.accept item place).1.Sound size := by
  have hflags := sound_withFlags h
  unfold accept
  split
  next word => exact hflags (.modifier word)
  next text => exact hflags (.token text)
  · split
    · exact { h with types := h.types.merge hitem.1 }
    · exact h
  · exact { h with
      elements := List.forall_mem_append.2 ⟨h.elements, List.forall_mem_singleton.2 hitem⟩ }
  · exact h

theorem sound_finish {g : PropertyGroup} (h : g.Sound size) {s : State} (hs : s.Sound uri size) :
    ∀ item ∈ g.finish s, item.Sound uri size := by
  unfold finish
  split
  · exact List.forall_mem_nil _
  · refine List.forall_mem_map.2 fun e he => ?_
    constructor
    case located => exact ⟨e.range, hs.locate e.range⟩
    case table => rfl
    case tidy => exact (h.types.merge (s.tidy_resolveTypes _)).merge (h.elements e he).2
    case parameters => nofun

end PropertyGroup

namespace ConstantGroup

def Sound (size : Nat) (g : ConstantGroup) : Prop :=
  ∀ e ∈ g.elements, e.range.Within size ∧ e.value.Tidy

theorem sound_withFlags {g : ConstantGroup} (h : g.Sound size) (item : Item) :
    (g.withFlags item).Sound size := by
  unfold withFlags
  exact h

theorem sound_accept {g : ConstantGroup} (h : g.Sound size) {item : Item}
    (hitem : item.Sound uri size) : (g.accept item).1.Sound size := by
  unfold accept
  split
  · exact sound_withFlags h _
  · exact sound_withFlags h _
  · exact List.forall_mem_append.2 ⟨h, List.forall_mem_singleton.2 hitem⟩
  · exact h

theorem sound_finish {g : ConstantGroup} (h : g.Sound size) {s : State} (hs : s.Sound uri size) :
    ∀ item ∈ g.finish s, item.Sound uri size := by
  unfold finish
  split
  · exact List.forall_mem_nil _
  · split
    all_goals
      refine List.forall_mem_map.2 fun e he => ?_
      constructor
      case located => exact ⟨e.range, hs.locate e.range⟩
      case table => rfl
      case tidy => exact (h e he).2
      case parameters => nofun

end ConstantGroup
end PhpIndex.Extract
