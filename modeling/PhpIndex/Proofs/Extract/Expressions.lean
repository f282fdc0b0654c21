import PhpIndex.Proofs.Extract.Parts

/-!
# Sound expressions

Calls, accesses to members and the other expressions turn sound items into sound items. The name
of a member is taken as it is spelled, so nothing is said of it.
-/
namespace PhpIndex.Extract
variable {uri : String} {size : Nat}

theorem relative_verbatim (name : String) :
    ∀ t ∈ (TypeUnion.single (.verbatim name)).types, t.absolute = false :=
  List.forall_mem_singleton.2 rfl

/-! ## Calls -/

/-- The reference to the arguments has the types of what is called. -/
theorem sound_argumentReference {callee : TypeUnion} {scope? : Option TypeUnion}
    {l : ArgumentList} {s : State} (hs : s.Sound uri size) (hl : l.range.Within size)
    (hcallee : callee.Tidy ∧ scope? = none ∨ ∃ name, callee = .single (.verbatim name))
    (hscope : ∀ u ∈ scope?, u.Tidy) : (argumentReference callee scope? l s).Sound uri size := by
  refine ⟨⟨⟨l.range, hs.locate l.range, hl⟩, hscope, hcallee.imp_left And.left, nofun, ?_⟩,
    TypeUnion.tidy_empty⟩
  intro hmember
  rcases hcallee with ⟨-, rfl⟩ | ⟨name, rfl⟩
  · cases hmember
  · exact relative_verbatim name

namespace FunctionCall

structure Sound (size : Nat) (c : FunctionCall) : Prop where
  callee : ∀ n ∈ c.callee?, n.2.Within size
  arguments : ∀ l ∈ c.arguments?, l.range.Within size

theorem sound_accept {c : FunctionCall} (h : c.Sound size) {item : Item}
    (hitem : item.Sound uri size) (place : Place) : (c.accept item place).1.Sound size := by
  unfold accept
  split
  · split
    · refine { h with callee := ?_ }
      rintro n ⟨⟩
      exact hitem
    · exact h
  · refine { h with arguments := ?_ }
    rintro l ⟨⟩
    exact hitem
  · exact h

/-- What a call declares has the text between the quotes of its first argument as its name and is
of the types of its second one. -/
theorem exists_of_defined? {c : FunctionCall} {range : Range} {s : State}
    {constant : ConstantDecl} (h : c.defined? range s = some constant) :
    let arguments := (c.arguments?.map ArgumentList.arguments).getD []
    ∃ first quoted, arguments.head? = some first ∧
      unquote? (Text.trimBlank (s.text first.valueRange)) = some quoted ∧
      Imports.trimLead quoted ≠ "" ∧ constant =
        { viaDefine := true
          name := Imports.trimLead quoted
          location := s.locate range
          value? := arguments[1]?.map (fun a => s.text a.valueRange)
          types := (arguments[1]?.map (fun a => s.resolveTypes a.value)).getD .empty
          description? := c.doc?.bind DocComment.description? } := by
  obtain ⟨first, hfirst, h⟩ := Option.bind_eq_some_iff.1 h
  obtain ⟨quoted, hquoted, h⟩ := Option.bind_eq_some_iff.1 h
  simp only at h
  split at h
  · cases h
  next hname =>
    cases h
    exact ⟨first, quoted, hfirst, hquoted, fun hempty => hname (String.isEmpty_iff.2 hempty), rfl⟩

theorem sound_defined {c : FunctionCall} {range : Range} {s : State} (hs : s.Sound uri size) :
    ∀ constant ∈ c.defined? range s, (Symbol.constant constant).Sound uri := by
  intro constant hconstant
  obtain ⟨first, quoted, -, -, -, rfl⟩ := exists_of_defined? hconstant
  constructor
  case located => exact ⟨range, hs.locate range⟩
  case table => rfl
  case tidy =>
    change TypeUnion.Tidy (Option.getD (Option.map _ _) _)
    generalize ((c.arguments?.map ArgumentList.arguments).getD [])[1]? = second
    cases second with
    | none => exact TypeUnion.tidy_empty
    | some a => exact s.tidy_resolveTypes a.value
  case parameters => nofun

theorem sound_plain {c : FunctionCall} (h : c.Sound size) (name : String) {callee : Range}
    (hcallee : callee.Within size) {s : State} (hs : s.Sound uri size) :
    ∀ item ∈ c.plain name callee s, item.Sound uri size := by
  have htypes : (TypeUnion.single (.ofAbsolute (s.imports.absoluteName name .function))).Tidy :=
    TypeUnion.tidy_single (TypeName.steady_ofAbsolute _)
  refine List.forall_mem_append.2 ⟨?_, List.forall_mem_singleton.2 ?_⟩
  · split
    next l hl =>
      split
      · exact List.forall_mem_nil _
      · refine List.forall_mem_singleton.2 ?_
        exact sound_argumentReference hs (h.arguments l hl) (.inl ⟨htypes, rfl⟩) nofun
    · exact List.forall_mem_nil _
  · exact ⟨⟨⟨callee, hs.locate callee, hcallee⟩, nofun, .inl htypes, nofun, nofun⟩,
      hs.functionTypes _⟩

theorem sound_finish {c : FunctionCall} (h : c.Sound size) {range : Range}
    (hrange : range.Within size) {s : State} (hs : s.Sound uri size) :
    ∀ item ∈ c.finish range s, item.Sound uri size := by
  unfold finish
  split
  · exact List.forall_mem_singleton.2 ⟨TypeUnion.tidy_empty, hrange⟩
  next name callee hname =>
    split
    next constant hconstant =>
      rw [Option.ite_none_right_eq_some] at hconstant
      refine List.forall_mem_cons.2 ⟨sound_defined hs constant hconstant.2, ?_⟩
      exact List.forall_mem_singleton.2
        ⟨TypeUnion.tidy_single (TypeName.steady_ofSource _), hrange⟩
    · exact sound_plain h name (h.callee (name, callee) hname) hs

end FunctionCall

namespace Creation

structure Sound (size : Nat) (c : Creation) : Prop where
  class? : ∀ n ∈ c.class?, n.1.Steady ∧ n.2.Within size
  types : c.types.Tidy
  arguments : ∀ l ∈ c.arguments?, l.range.Within size

theorem sound_accept {c : Creation} (h : c.Sound size) {item : Item}
    (hitem : item.Sound uri size) (place : Place) (s : State) :
    (c.accept item place s).1.Sound size := by
  unfold accept
  split
  · refine { h with arguments := ?_ }
    rintro l ⟨⟩
    exact hitem
  next text range =>
    split
    · have hname := s.steady_resolveClass text
      generalize s.resolveClass text = name at hname
      refine { h with class? := ?_, types := h.types.push hname }
      rintro n ⟨⟩
      exact ⟨hname, hitem⟩
    · exact h
  next types range =>
    split
    · refine { h with class? := ?_, types := h.types.merge hitem.1 }
      intro n hn
      obtain ⟨t, ht, rfl⟩ := Option.map_eq_some_iff.1 hn
      exact ⟨hitem.1.steady t (List.mem_of_head? ht), hitem.2⟩
    · exact h
  · split
    · exact { h with types := h.types.merge hitem.1 }
    · exact h
  next role names =>
    refine { h with types := h.types.foldl_push fun t ht => ?_ }
    split at ht
    · obtain ⟨name, -, rfl⟩ := List.mem_map.1 ht
      exact TypeName.steady_ofAbsolute name
    · cases ht
  · exact h

theorem sound_finish {c : Creation} (h : c.Sound size) {range : Range}
    (hrange : range.Within size) {s : State} (hs : s.Sound uri size) :
    ∀ item ∈ c.finish range s, item.Sound uri size := by
  unfold finish
  split
  · exact List.forall_mem_singleton.2 ⟨h.types, hrange⟩
  next name nameRange hclass =>
    obtain ⟨hname, hnameRange⟩ := h.class? _ hclass
    split
    · exact List.forall_mem_singleton.2 ⟨h.types, hrange⟩
    · refine List.forall_mem_append.2 ⟨List.forall_mem_map.2 fun l hl => ?_, ?_⟩
      · refine sound_argumentReference hs (h.arguments l (Option.mem_toList.1 hl))
          (.inr ⟨_, rfl⟩) ?_
        rintro u ⟨⟩
        exact h.types
      · refine List.forall_mem_singleton.2 ⟨⟨⟨nameRange, hs.locate nameRange, hnameRange⟩, nofun,
          ?_, nofun, nofun⟩, h.types⟩
        exact .inl (TypeUnion.tidy_single hname)

end Creation

/-! ## Members -/

namespace MemberAccess

structure Sound (uri : String) (size : Nat) (m : MemberAccess) : Prop where
  kind : m.kind ≠ .variable
  scope : ∀ u ∈ m.scope?, u.Tidy
  scopeReference : ∀ item ∈ m.scopeReference?, item.Sound uri size
  name : ∀ n ∈ m.name?, n.2.Within size
  arguments : ∀ l ∈ m.arguments?, l.range.Within size

theorem sound_acceptScope {m : MemberAccess} (h : m.Sound uri size) {item : Item}
    (hitem : item.Sound uri size) {s : State} (hs : s.Sound uri size) :
    (m.acceptScope item s).Sound uri size := by
  have hscope {u : TypeUnion} (hu : u.Tidy) : Sound uri size { m with scope? := some u } := by
    refine { h with scope := ?_ }
    rintro v ⟨⟩
    exact hu
  unfold acceptScope
  split
  next text range =>
    have hname := s.steady_resolveClass text
    generalize s.resolveClass text = name at hname
    refine { hscope (TypeUnion.tidy_single hname) with scopeReference := ?_ }
    rintro item ⟨⟩
    exact hs.classReference hname hitem
  next r value =>
    split
    next hvariable =>
      have hkind : r.kind = .variable := by
        simp only [Bool.and_eq_true, decide_eq_true_eq] at hvariable
        exact hvariable.1
      exact hscope (TypeUnion.tidy_single (.inr (hitem.1.name hkind)))
    · exact hscope hitem.2
  · exact hscope hitem.1
  · exact hscope hitem.1
  · exact hscope TypeUnion.tidy_empty

theorem sound_acceptOther {m : MemberAccess} (h : m.Sound uri size) {item : Item}
    (hitem : item.Sound uri size) (place : Place) {s : State} (hs : s.Sound uri size) :
    (m.acceptOther item place s).1.Sound uri size := by
  unfold acceptOther
  split
  · exact { h with }
  · split
    · exact sound_acceptScope h hitem hs
    · exact h

theorem sound_accept {m : MemberAccess} (h : m.Sound uri size) {item : Item}
    (hitem : item.Sound uri size) (place : Place) {s : State} (hs : s.Sound uri size) :
    (m.accept item place s).1.Sound uri size := by
  unfold accept
  split
  · refine { h with arguments := ?_ }
    rintro l ⟨⟩
    exact hitem
  · split
    · refine { h with name := ?_ }
      rintro n ⟨⟩
      exact hitem
    · exact sound_acceptOther h hitem place hs
  · exact sound_acceptOther h hitem place hs

theorem tidy_getD {m : MemberAccess} (h : m.Sound uri size) :
    (m.scope?.getD .empty).Tidy := by
  cases hscope : m.scope? with
  | none => exact TypeUnion.tidy_empty
  | some u => exact h.scope u hscope

theorem sound_withScope {r : Reference} (h : r.Sound uri size)
    (hmember : ∀ t ∈ r.types.types, t.absolute = false) {scope : TypeUnion} (hscope : scope.Tidy) :
    (r.withScope scope).Sound uri size := by
  unfold Reference.withScope
  split
  · exact h
  · refine { h with scope := ?_, ofMember := fun _ => hmember }
    rintro u ⟨⟩
    exact hscope

theorem sound_unnamed {m : MemberAccess} (h : m.Sound uri size) {range : Range}
    (hrange : range.Within size) {s : State} (hs : s.Sound uri size) :
    (m.unnamed range s).Sound uri size := by
  unfold unnamed
  split
  · refine ⟨sound_withScope ?_ (List.forall_mem_nil _) (tidy_getD h), TypeUnion.tidy_empty⟩
    exact ⟨⟨range, hs.locate range, hrange⟩, nofun, .inl TypeUnion.tidy_empty, nofun,
      fun _ => List.forall_mem_nil _⟩
  · exact ⟨TypeUnion.tidy_empty, hrange⟩

theorem sound_named {m : MemberAccess} (h : m.Sound uri size) (raw : String)
    {nameRange range : Range} (hname : nameRange.Within size) (hrange : range.Within size)
    {s : State} (hs : s.Sound uri size) :
    ∀ item ∈ m.named raw nameRange range s, item.Sound uri size := by
  refine List.forall_mem_append.2 ⟨List.forall_mem_map.2 fun l hl => ?_, ?_⟩
  · refine sound_argumentReference hs (h.arguments l (Option.mem_toList.1 hl)) (.inr ⟨_, rfl⟩) ?_
    rintro u ⟨⟩
    exact tidy_getD h
  · refine List.forall_mem_singleton.2 ⟨sound_withScope ?_ (relative_verbatim _)
      (tidy_getD h), ?_⟩
    · exact ⟨⟨_, hs.locate _, hrange.1, hname.2⟩, nofun, .inr ⟨_, rfl⟩,
        fun hkind => absurd hkind h.kind, fun _ => relative_verbatim _⟩
    · generalize (if m.kind = .staticProperty then _ else raw) = name
      split
      · exact TypeUnion.tidy_single (TypeName.steady_ofSource _)
      · exact hs.memberTypes _ _ _

theorem sound_finish {m : MemberAccess} (h : m.Sound uri size) {range : Range}
    (hrange : range.Within size) {s : State} (hs : s.Sound uri size) :
    ∀ item ∈ m.finish range s, item.Sound uri size := by
  refine List.forall_mem_append.2 ⟨fun item hitem => ?_, ?_⟩
  · exact h.scopeReference item (Option.mem_toList.1 hitem)
  · split
    · exact List.forall_mem_singleton.2 (sound_unnamed h hrange hs)
    next raw nameRange hname =>
      exact sound_named h raw (h.name (raw, nameRange) hname) hrange hs

end MemberAccess

/-! ## Other expressions -/

theorem tidy_builtin (name : String) : (builtin name).Tidy :=
  TypeUnion.tidy_single (TypeName.steady_ofSource name)

namespace Assignment

theorem ensures_finish (a : Assignment) {range : Range} (hrange : range.Within size) :
    Ensures uri size (a.finish range) fun items => ∀ item ∈ items, item.Sound uri size := by
  intro s hs
  have hvalue := s.tidy_resolveTypes a.value
  unfold finish
  cases htarget : a.target? with
  | none => exact ⟨List.forall_mem_singleton.2 ⟨hvalue, hrange⟩, hs, .refl s⟩
  | some target =>
    have htypes := hvalue.merge (s.tidy_resolveTypes (a.documented target))
    exact ⟨List.forall_mem_singleton.2 ⟨htypes, hrange⟩, hs.bind target htypes,
      s.keeps_bind target _⟩

end Assignment

namespace Binary

structure Sound (b : Binary) : Prop where
  left : b.left.Tidy
  right : b.right.Tidy

theorem sound_accept {b : Binary} (h : b.Sound) {item : Item} (hitem : item.Sound uri size)
    (place : Place) : (b.accept item place).1.Sound := by
  unfold accept
  split
  · split
    · exact { h with }
    · exact h
  · split
    next types htypes =>
      split
      · exact { h with right := hitem.types types htypes }
      · exact { h with left := hitem.types types htypes }
    · exact h

theorem tidy_numeric (left right : TypeUnion) : (numeric left right).Tidy := by
  unfold numeric
  split
  · exact tidy_builtin "float"
  · split
    · exact tidy_builtin "int"
    · exact (tidy_builtin "int").push (TypeName.steady_ofSource "float")

theorem tidy_types {b : Binary} (h : b.Sound) : b.types.Tidy := by
  unfold types
  cases b.operator? with
  | none => exact TypeUnion.tidy_empty
  | some operator =>
    refine iteInduction (fun _ => tidy_builtin "string") fun _ => ?_
    refine iteInduction (fun _ => tidy_builtin "bool") fun _ => ?_
    refine iteInduction (fun _ => h.left.merge h.right) fun _ => ?_
    refine iteInduction (fun _ => tidy_builtin "int") fun _ => ?_
    exact iteInduction (fun _ => tidy_numeric b.left b.right) fun _ => TypeUnion.tidy_empty

end Binary

theorem LastValue.tidy_accept {v : LastValue} (h : v.types.Tidy) {item : Item}
    (hitem : item.Sound uri size) : (v.accept item).1.types.Tidy := hitem.getD h

namespace Unary

theorem tidy_accept {u : Unary} (h : u.operand.Tidy) {item : Item} (hitem : item.Sound uri size) :
    (u.accept item).1.operand.Tidy := by
  unfold accept
  split
  · exact h
  · exact hitem.getD h

theorem tidy_types {u : Unary} (h : u.operand.Tidy) : u.types.Tidy := by
  unfold types
  split
  · exact tidy_builtin "bool"
  · split
    · exact tidy_builtin "int"
    · exact h

end Unary

theorem Cast.tidy_accept {c : Cast} (h : c.types.Tidy) {item : Item} (hitem : item.Sound uri size)
    (place : Place) : (c.accept item place).1.types.Tidy := by
  unfold accept
  split
  · split
    · exact hitem.1
    · exact h
  · exact h

namespace Conditional

structure Sound (c : Conditional) : Prop where
  condition : c.condition.Tidy
  body : ∀ u ∈ c.body?, u.Tidy
  alternative : c.alternative.Tidy

theorem sound_accept {c : Conditional} (h : c.Sound) {item : Item} (hitem : item.Sound uri size)
    (place : Place) : (c.accept item place).1.Sound := by
  unfold accept
  split
  next types htypes =>
    have htidy := hitem.types types htypes
    unfold Conditional.place
    split
    · exact { h with condition := htidy }
    · refine { h with body := ?_ }
      rintro u ⟨⟩
      exact htidy
    · exact { h with alternative := htidy }
    · exact h
  · exact h

theorem tidy_types {c : Conditional} (h : c.Sound) : c.types.Tidy := by
  refine TypeUnion.Tidy.merge ?_ h.alternative
  cases hbody : c.body? with
  | none => exact h.condition
  | some u => exact h.body u hbody

end Conditional

/-! ## Statements that bind variables -/

theorem ensures_bind (name : String) {types : TypeUnion} (htypes : types.Tidy) :
    Ensures uri size (modify fun s : State => s.bind name types) fun _ => True :=
  Ensures.modify fun s hs => ⟨hs.bind name htypes, s.keeps_bind name types⟩

theorem ElementLoop.ensures_accept (l : ElementLoop) (item : Item) :
    Ensures uri size (l.accept item) fun _ => True := by
  unfold accept
  split
  · exact Ensures.pure trivial
  · split
    · split
      · exact (ensures_bind _ TypeUnion.tidy_empty).bind fun _ _ => Ensures.pure trivial
      · exact Ensures.pure trivial
    · exact Ensures.pure trivial

theorem CatchClause.ensures_accept {c : CatchClause} (h : c.types.Tidy) {item : Item}
    (hitem : item.Sound uri size) (place : Place) :
    Ensures uri size (c.accept item place) fun r => r.1.types.Tidy := by
  unfold accept
  split
  · split
    · exact Ensures.pure (h.merge hitem.1)
    · exact Ensures.pure h
  · split
    · split
      · exact (ensures_bind _ h).bind fun _ _ => Ensures.pure h
      · exact Ensures.pure h
    · exact Ensures.pure h

theorem ensures_acceptGlobal (item : Item) :
    Ensures uri size (acceptGlobal item) fun _ => True := by
  unfold acceptGlobal
  split
  · exact Ensures.pure trivial
  next name _ =>
    refine Ensures.bind (Ensures.modify fun s hs => ?_) fun _ _ => Ensures.pure trivial
    exact ⟨hs.bind name (hs.globals.getD name), s.keeps_bind name _⟩

end PhpIndex.Extract
