import PhpIndex.Proofs.Extract.Walk

/-!
# Places in a node

The places that an item tells of lie in the node that it comes from: where a declaration or a
reference stands, the name of a member in the place of its reference, and the arguments of a call
in that of their list. What a construct keeps of the items that it takes up lies in its own node,
and the arguments that it keeps stand one behind the other if they were taken up so.
Main statements: `Construct.inside_accept`, `Construct.found_finish`.
-/
namespace PhpIndex

/-! ## Ranges -/

namespace Range

/-- Whether the range does not end before it starts and lies in the other one. -/
def Inside (r outer : Range) : Prop := r.start ≤ r.stop ∧ outer.encloses r = true

instance (r outer : Range) : Decidable (r.Inside outer) := inferInstanceAs (Decidable (_ ∧ _))

/-- Whether the range ends in front of the other one. -/
def Before (a b : Range) : Prop := a.stop ≤ b.start

instance (a b : Range) : Decidable (a.Before b) := inferInstanceAs (Decidable (_ ≤ _))

theorem inside_self {r : Range} (h : r.start ≤ r.stop) : r.Inside r := ⟨h, r.encloses_refl⟩

theorem Inside.mono {r inner outer : Range} (h : r.Inside inner)
    (hin : outer.encloses inner = true) : r.Inside outer := ⟨h.1, encloses_trans hin h.2⟩

/-- What lies in a range lies in what reaches from the start of that one to its own end. -/
theorem Inside.upTo {r outer : Range} (h : r.Inside outer) :
    r.Inside ⟨outer.start, r.stop⟩ ∧ Inside ⟨outer.start, r.stop⟩ outer := by
  obtain ⟨hle, hin⟩ := h
  obtain ⟨hstart, hstop⟩ := encloses_iff.1 hin
  exact ⟨⟨hle, encloses_iff.2 ⟨hstart, UInt32.le_refl _⟩⟩, UInt32.le_trans hstart hle,
    encloses_iff.2 ⟨UInt32.le_refl _, hstop⟩⟩

end Range

/-- Whether the location is a range of the document that lies in the other one. -/
def Location.Inside (uri : String) (outer : Range) (l : Location) : Prop :=
  ∃ range : Range, l = .of uri range ∧ range.Inside outer

theorem Location.Inside.mono {uri : String} {inner outer : Range} {l : Location}
    (h : l.Inside uri inner) (hin : outer.encloses inner = true) : l.Inside uri outer := by
  obtain ⟨range, hrange, hinside⟩ := h
  exact ⟨range, hrange, hinside.mono hin⟩

/-- Whether the reference lies in a range of the document, and in the reference the member and the
arguments, these one behind the other if they are to be `ordered`. -/
structure Reference.Inside (uri : String) (ordered : Prop) (outer : Range) (r : Reference) :
    Prop where
  location : r.location.Inside uri outer
  member : ∀ m ∈ r.memberRange?, ∀ range ∈ r.range?, m.Inside range
  arguments : ∀ a ∈ r.arguments, ∀ range ∈ r.range?, a.Inside range
  inOrder : ordered → r.arguments.Pairwise Range.Before

namespace Reference.Inside
variable {uri : String} {ordered : Prop} {inner outer : Range} {r : Reference}

theorem mono (h : r.Inside uri ordered inner) (hin : outer.encloses inner = true) :
    r.Inside uri ordered outer := { h with location := h.location.mono hin }

theorem of_bare (hlocation : r.location.Inside uri outer) (hmember : r.memberRange? = none)
    (harguments : r.arguments = []) : r.Inside uri ordered outer where
  location := hlocation
  member := by
    rw [hmember]
    nofun
  arguments := by
    rw [harguments]
    exact List.forall_mem_nil _
  inOrder _ := harguments ▸ .nil

theorem withScope (h : r.Inside uri ordered outer) (scope : TypeUnion) :
    (r.withScope scope).Inside uri ordered outer := by
  unfold Reference.withScope
  split
  · exact h
  · exact ⟨h.location, h.member, h.arguments, h.inOrder⟩

end Reference.Inside

namespace Extract
variable {uri : String} {ordered : Prop} {inner outer : Range} {position : UInt32} {s : State}

/-! ## Items -/

structure ArgumentList.Inside (ordered : Prop) (outer : Range) (l : ArgumentList) : Prop where
  range : l.range.Inside outer
  arguments : ∀ a ∈ l.arguments, a.range.Inside l.range
  inOrder : ordered → (l.arguments.map Argument.range).Pairwise Range.Before

namespace Item

def isArgument : Item → Bool
  | .argument _ => true
  | _ => false

/-- Whether the places that the item tells of lie in the range. -/
def Inside (uri : String) (ordered : Prop) (outer : Range) : Item → Prop
  | .name _ range => range.Inside outer
  | .type _ range => range.Inside outer
  | .reference r _ => r.Inside uri ordered outer
  | .symbol s => s.location.Inside uri outer
  | .argument a => a.range.Inside outer
  | .arguments l => l.Inside ordered outer
  | .useClause c => c.range.Inside outer
  | .element e => e.range.Inside outer
  | _ => True

theorem Inside.mono {item : Item} (h : item.Inside uri ordered inner)
    (hin : outer.encloses inner = true) : item.Inside uri ordered outer := by
  cases item with
  | name text range => exact Range.Inside.mono h hin
  | type types range => exact Range.Inside.mono h hin
  | reference r value => exact Reference.Inside.mono h hin
  | symbol s => exact Location.Inside.mono h hin
  | argument a => exact Range.Inside.mono h hin
  | arguments l => exact { h with range := h.range.mono hin }
  | useClause c => exact Range.Inside.mono h hin
  | element e => exact Range.Inside.mono h hin
  | _ => trivial

/-- Whether the item lies in the range and is no argument of a call. -/
structure Found (uri : String) (ordered : Prop) (outer : Range) (item : Item) : Prop where
  inside : item.Inside uri ordered outer
  isArgument : item.isArgument = false

/-- Where the arguments end that were taken up, the item included. -/
def after (position : UInt32) : Item → UInt32
  | .argument a => a.range.stop
  | _ => position

theorem after_of_isArgument {item : Item} (h : item.isArgument = false) :
    item.after position = position := by
  cases item with
  | argument a => cases h
  | _ => rfl

end Item

theorem State.inside_locate (hs : s.uri = uri) {range : Range} (h : range.Inside outer) :
    (s.locate range).Inside uri outer := ⟨range, by rw [State.locate, hs], h⟩

theorem State.found_classReference (hs : s.uri = uri) (name : TypeName) {range : Range}
    (h : range.Inside outer) : (s.classReference name range).Found uri ordered outer :=
  ⟨.of_bare (s.inside_locate hs h) rfl rfl, rfl⟩

theorem found_argumentReference (hs : s.uri = uri) (callee : TypeUnion)
    (scope? : Option TypeUnion) {l : ArgumentList} (h : l.Inside ordered outer) :
    (argumentReference callee scope? l s).Found uri ordered outer where
  inside :=
    { location := s.inside_locate hs h.range
      member := nofun
      arguments := by
        rintro a ha range ⟨⟩
        obtain ⟨argument, hargument, rfl⟩ := List.mem_map.1 ha
        exact h.arguments argument hargument
      inOrder := h.inOrder }
  isArgument := rfl

/-! ## Constructs -/

/-- Whether the arguments lie in the range, and the last one ends in front of the position. -/
structure ArgumentEntries.Inside (ordered : Prop) (outer : Range) (position : UInt32)
    (l : ArgumentEntries) : Prop where
  arguments : ∀ a ∈ l.arguments, a.range.Inside outer
  inOrder : ordered → (l.arguments.map Argument.range).Pairwise Range.Before
  before : ordered → ∀ a ∈ l.arguments, a.range.stop ≤ position

structure FunctionCall.Inside (ordered : Prop) (outer : Range) (c : FunctionCall) : Prop where
  callee : ∀ n ∈ c.callee?, n.2.Inside outer
  arguments : ∀ l ∈ c.arguments?, l.Inside ordered outer

structure Creation.Inside (ordered : Prop) (outer : Range) (c : Creation) : Prop where
  class? : ∀ n ∈ c.class?, n.2.Inside outer
  arguments : ∀ l ∈ c.arguments?, l.Inside ordered outer

structure MemberAccess.Inside (uri : String) (ordered : Prop) (outer : Range) (m : MemberAccess) :
    Prop where
  name : ∀ n ∈ m.name?, n.2.Inside outer
  arguments : ∀ l ∈ m.arguments?, l.Inside ordered outer
  scopeReference : ∀ item ∈ m.scopeReference?, item.Found uri ordered outer

namespace Construct

/-- Whether the places that the construct keeps lie in the range, and no argument that it keeps
reaches beyond the position. -/
def Inside (uri : String) (ordered : Prop) (outer : Range) (position : UInt32) :
    Construct → Prop
  | .useStatement u => ∀ c ∈ u.clauses, c.range.Inside outer
  | .useName u => ∀ n ∈ u.name?, n.2.Inside outer
  | .nameList l => ∀ n ∈ l.names, n.2.Inside outer
  | .parameter p => ∀ n ∈ p.name?, n.2.Inside outer
  | .typeHint h => ∀ item ∈ h.references, item.Found uri ordered outer
  | .properties g => ∀ e ∈ g.elements, e.range.Inside outer
  | .constants g => ∀ e ∈ g.elements, e.range.Inside outer
  | .call c => c.Inside ordered outer
  | .creation c => c.Inside ordered outer
  | .member m => m.Inside uri ordered outer
  | .arguments l => l.Inside ordered outer position
  | _ => True

def isArgument : Construct → Bool
  | .argument _ => true
  | _ => false

theorem Inside.mono {construct : Construct} {position' : UInt32}
    (h : construct.Inside uri ordered outer position) (hle : ordered → position ≤ position') :
    construct.Inside uri ordered outer position' := by
  cases construct with
  | arguments l =>
    exact { h with before := fun ho a ha => UInt32.le_trans (h.before ho a ha) (hle ho) }
  | _ => exact h

end Construct

/-! ## Taking up items -/

section Accept
variable {item : Item} (hitem : item.Inside uri ordered outer)
include hitem

theorem UseName.inside_accept {u : UseName} (h : ∀ n ∈ u.name?, n.2.Inside outer) (place : Place) :
    ∀ n ∈ (u.accept item place).1.name?, n.2.Inside outer := by
  unfold accept
  split
  · split
    · exact h
    · split <;> exact h
  · split
    · exact h
    · split
      · rintro n ⟨⟩
        exact hitem
      · exact h
  · exact h
  · exact h

theorem UseStatement.inside_accept {u : UseStatement} (h : ∀ c ∈ u.clauses, c.range.Inside outer) :
    ∀ c ∈ (u.accept item).1.clauses, c.range.Inside outer := by
  unfold accept
  split
  · split <;> exact h
  · exact h
  · exact List.forall_mem_append.2 ⟨h, List.forall_mem_singleton.2 hitem⟩
  · exact h

theorem NameList.inside_accept {l : NameList} (h : ∀ n ∈ l.names, n.2.Inside outer)
    (place : Place) (s : State) : ∀ n ∈ (l.accept item place s).1.names, n.2.Inside outer := by
  unfold accept
  split
  · split
    · exact List.forall_mem_append.2 ⟨h, List.forall_mem_singleton.2 hitem⟩
    · exact h
  · exact h

theorem ParameterEntry.inside_accept {p : ParameterEntry} (h : ∀ n ∈ p.name?, n.2.Inside outer)
    (place : Place) (s : State) :
    ∀ n ∈ ((p.accept item place).run s).1.1.name?, n.2.Inside outer := by
  have hfragment (item : Item) (s : State) :
      ∀ n ∈ (p.acceptFragment item place s).1.name?, n.2.Inside outer := by
    unfold acceptFragment
    split
    · split <;> exact h
    · exact h
  unfold accept
  split
  · split <;> exact h
  · split
    · exact h
    · split <;> exact h
  · exact h
  · split
    · rintro n ⟨⟩
      exact hitem
    · exact hfragment _ _
  · exact hfragment _ _

theorem TypeHint.found_accept (hs : s.uri = uri) {h : TypeHint}
    (hrefs : ∀ item ∈ h.references, item.Found uri ordered outer) (place : Place) :
    ∀ item' ∈ (h.accept item place s).1.references, item'.Found uri ordered outer := by
  unfold accept
  split
  · split
    · exact List.forall_mem_append.2
        ⟨hrefs, List.forall_mem_singleton.2 (s.found_classReference hs _ hitem)⟩
    · exact hrefs
  · exact hrefs
  · split <;> exact hrefs
  · exact hrefs

omit hitem in
@[simp]
theorem PropertyGroup.elements_withFlags (g : PropertyGroup) (item : Item) :
    (g.withFlags item).elements = g.elements := rfl

omit hitem in
@[simp]
theorem ConstantGroup.elements_withFlags (g : ConstantGroup) (item : Item) :
    (g.withFlags item).elements = g.elements := rfl

theorem PropertyGroup.inside_accept {g : PropertyGroup} (h : ∀ e ∈ g.elements, e.range.Inside outer)
    (place : Place) : ∀ e ∈ (g.accept item place).1.elements, e.range.Inside outer := by
  unfold accept
  split
  · simpa only [elements_withFlags] using h
  · simpa only [elements_withFlags] using h
  · split <;> exact h
  · exact List.forall_mem_append.2 ⟨h, List.forall_mem_singleton.2 hitem⟩
  · exact h

theorem ConstantGroup.inside_accept {g : ConstantGroup}
    (h : ∀ e ∈ g.elements, e.range.Inside outer) :
    ∀ e ∈ (g.accept item).1.elements, e.range.Inside outer := by
  unfold accept
  split
  · simpa only [elements_withFlags] using h
  · simpa only [elements_withFlags] using h
  · exact List.forall_mem_append.2 ⟨h, List.forall_mem_singleton.2 hitem⟩
  · exact h

theorem FunctionCall.inside_accept {c : FunctionCall} (h : c.Inside ordered outer)
    (place : Place) : (c.accept item place).1.Inside ordered outer := by
  unfold accept
  split
  · split
    · refine { h with callee := ?_ }
      rintro n ⟨⟩
      exact hitem
    · exact h
  · refine { h with arguments := ?_ }
    rintro l ⟨⟩
    exact hitem
  · exact h

theorem Creation.inside_accept {c : Creation} (h : c.Inside ordered outer) (place : Place)
    (s : State) : (c.accept item place s).1.Inside ordered outer := by
  unfold accept
  split
  · refine { h with arguments := ?_ }
    rintro l ⟨⟩
    exact hitem
  next text range =>
    generalize s.resolveClass text = name
    split
    · refine { h with class? := ?_ }
      rintro n ⟨⟩
      exact hitem
    · exact h
  · split
    · refine { h with class? := fun n hn => ?_ }
      obtain ⟨t, -, rfl⟩ := Option.map_eq_some_iff.1 hn
      exact hitem
    · exact h
  · split
    · exact { h with }
    · exact h
  · exact { h with }
  · exact h

theorem MemberAccess.inside_accept (hs : s.uri = uri) {m : MemberAccess}
    (h : m.Inside uri ordered outer) (place : Place) :
    (m.accept item place s).1.Inside uri ordered outer := by
  have hscope : (m.acceptScope item s).Inside uri ordered outer := by
    unfold acceptScope
    split
    · refine { h with scopeReference := ?_ }
      rintro item' ⟨⟩
      exact s.found_classReference hs _ hitem
    · split <;> exact { h with }
    · exact { h with }
    · exact { h with }
    · exact { h with }
  have hother : (m.acceptOther item place s).1.Inside uri ordered outer := by
    unfold acceptOther
    split
    · exact { h with }
    · split
      · exact hscope
      · exact h
  unfold accept
  split
  · refine { h with arguments := ?_ }
    rintro l ⟨⟩
    exact hitem
  · split
    · refine { h with name := ?_ }
      rintro n ⟨⟩
      exact hitem
    · exact hother
  · exact hother

/-- An argument that starts behind the others is the last one then. -/
theorem ArgumentEntries.inside_accept {l : ArgumentEntries} (h : l.Inside ordered outer position)
    (hnext : ordered → ∀ a, item = .argument a → position ≤ a.range.start) :
    (l.accept item).1.Inside ordered outer (item.after position) := by
  unfold accept
  split
  next a =>
    have hlast (ho : ordered) : ∀ b ∈ l.arguments, b.range.Before a.range := fun b hb =>
      UInt32.le_trans (h.before ho b hb) (hnext ho a rfl)
    constructor
    case arguments =>
      exact List.forall_mem_append.2 ⟨h.arguments, List.forall_mem_singleton.2 hitem⟩
    case inOrder =>
      intro ho
      rw [List.map_append, List.pairwise_append]
      refine ⟨h.inOrder ho, List.pairwise_singleton _ _, List.forall_mem_map.2 fun b hb => ?_⟩
      exact List.forall_mem_singleton.2 (hlast ho b hb)
    case before =>
      intro ho
      refine List.forall_mem_append.2 ⟨fun b hb => ?_, ?_⟩
      · exact UInt32.le_trans (hlast ho b hb) hitem.1
      · exact List.forall_mem_singleton.2 (UInt32.le_refl _)
  next hno =>
    have hself : item.after position = position := by
      cases item with
      | argument a => exact absurd rfl (hno a)
      | _ => rfl
    rw [hself]
    exact h

/-- What a construct keeps lies in its node, with whatever it takes up. -/
theorem Construct.inside_accept (hs : s.uri = uri) {construct : Construct}
    (h : construct.Inside uri ordered outer position)
    (hnext : ordered → ∀ a, item = .argument a → position ≤ a.range.start) (place : Place) :
    ((construct.accept item place).run s).1.1.Inside uri ordered outer (item.after position) ∧
      ((construct.accept item place).run s).1.1.isArgument = construct.isArgument := by
  cases construct with
  | useStatement u => exact ⟨UseStatement.inside_accept hitem h, rfl⟩
  | useName u => exact ⟨UseName.inside_accept hitem h place, rfl⟩
  | nameList l => exact ⟨NameList.inside_accept hitem h place s, rfl⟩
  | parameter p => exact ⟨ParameterEntry.inside_accept hitem h place s, rfl⟩
  | typeHint t => exact ⟨TypeHint.found_accept hitem hs h place, rfl⟩
  | properties g => exact ⟨PropertyGroup.inside_accept hitem h place, rfl⟩
  | constants g => exact ⟨ConstantGroup.inside_accept hitem h, rfl⟩
  | call c => exact ⟨FunctionCall.inside_accept hitem h place, rfl⟩
  | creation c => exact ⟨Creation.inside_accept hitem h place s, rfl⟩
  | member m => exact ⟨MemberAccess.inside_accept hitem hs h place, rfl⟩
  | arguments l => exact ⟨ArgumentEntries.inside_accept hitem h hnext, rfl⟩
  | «alias» name? =>
    cases item with
    | _ => exact ⟨trivial, rfl⟩
  | _ => exact ⟨trivial, rfl⟩

end Accept

/-! ## Being left -/

section Finish
variable {range : Range} (hrange : range.start ≤ range.stop) (hs : s.uri = uri)

theorem NamespaceStatement.found_finish (n : NamespaceStatement) (s : State) :
    ∀ item ∈ (n.finish.run s).1, item.Found uri ordered range := by
  unfold finish
  split <;> exact List.forall_mem_nil _

include hrange in
theorem UseName.found_finish {u : UseName} (h : ∀ n ∈ u.name?, n.2.Inside range) :
    ∀ item ∈ u.finish range, item.Found uri ordered range := by
  unfold finish
  split
  next name nameRange hname =>
    refine List.forall_mem_singleton.2 ⟨?_, rfl⟩
    unfold Item.Inside
    simp only
    split
    · exact Range.inside_self hrange
    · exact h _ hname
  · exact List.forall_mem_nil _

include hs in
theorem UseStatement.found_finish {u : UseStatement} (h : ∀ c ∈ u.clauses, c.range.Inside range) :
    ∀ item ∈ (u.finish.run s).1, item.Found uri ordered range := by
  unfold finish
  generalize u.clauses = clauses at h
  induction clauses generalizing s with
  | nil => exact List.forall_mem_nil _
  | cons c rest ih =>
    obtain ⟨hc, hrest⟩ := List.forall_mem_cons.1 h
    rw [List.mapM_cons]
    have hregister : ((u.register c).run s).1.Found uri ordered range :=
      ⟨.of_bare ⟨c.range, congrArg (Location.of · c.range) hs, hc⟩ rfl rfl, rfl⟩
    exact List.forall_mem_cons.2 ⟨hregister, ih (s := ((u.register c).run s).2) hs hrest⟩

include hs in
theorem NameList.found_finish {l : NameList} (h : ∀ n ∈ l.names, n.2.Inside range) :
    ∀ item ∈ l.finish s, item.Found uri ordered range :=
  List.forall_mem_append.2
    ⟨List.forall_mem_map.2 fun n hn => s.found_classReference hs _ (h n hn),
      List.forall_mem_singleton.2 ⟨trivial, rfl⟩⟩

include hrange hs in
theorem ClassBody.found_finish (c : ClassBody) :
    ∀ item ∈ ((c.finish range).run s).1, item.Found uri ordered range := by
  simp only [finish, StateT.run_bind, StateT.run_get, StateT.run_set, pure_bind]
  split
  · exact List.forall_mem_singleton.2 ⟨trivial, rfl⟩
  · exact List.forall_mem_nil _
  · exact List.forall_mem_singleton.2 ⟨s.inside_locate hs (Range.inside_self hrange), rfl⟩

include hrange hs in
theorem EnumCase.found_finish (e : EnumCase) :
    ∀ item ∈ e.finish range s, item.Found uri ordered range := by
  unfold finish
  split
  · exact List.forall_mem_singleton.2 ⟨s.inside_locate hs (Range.inside_self hrange), rfl⟩
  · exact List.forall_mem_nil _

include hrange hs in
theorem Callable.found_finish (c : Callable) :
    ∀ item ∈ ((c.finish range).run s).1, item.Found uri ordered range := by
  have huri : s.closeScope.uri = uri := by
    unfold State.closeScope
    split <;> exact hs
  have hself := s.closeScope.inside_locate huri (Range.inside_self hrange)
  simp only [finish, StateT.run_bind, StateT.run_get, StateT.run_modify, pure_bind]
  split
  · exact List.forall_mem_singleton.2 ⟨trivial, rfl⟩
  · exact List.forall_mem_singleton.2 ⟨trivial, rfl⟩
  · exact List.forall_mem_nil _
  · exact List.forall_mem_singleton.2 ⟨hself, rfl⟩
  · split
    · exact List.forall_mem_nil _
    · exact List.forall_mem_singleton.2 ⟨hself, rfl⟩

include hs in
theorem ParameterEntry.found_finish {p : ParameterEntry} (h : ∀ n ∈ p.name?, n.2.Inside range) :
    ∀ item ∈ p.finish s, item.Found uri ordered range := by
  unfold finish
  split
  · exact List.forall_mem_nil _
  next name nameRange hname =>
    have hlocation := s.inside_locate hs (h _ hname)
    simp only
    split
    · exact List.forall_mem_singleton.2 ⟨trivial, rfl⟩
    · split
      · exact List.forall_mem_cons.2
          ⟨⟨hlocation, rfl⟩, List.forall_mem_singleton.2 ⟨trivial, rfl⟩⟩
      · exact List.forall_mem_singleton.2 ⟨trivial, rfl⟩

include hrange in
theorem TypeHint.found_finish {h : TypeHint}
    (hrefs : ∀ item ∈ h.references, item.Found uri ordered range) :
    ∀ item ∈ h.finish range, item.Found uri ordered range :=
  List.forall_mem_append.2
    ⟨hrefs, List.forall_mem_singleton.2 ⟨Range.inside_self hrange, rfl⟩⟩

include hs in
theorem PropertyGroup.found_finish {g : PropertyGroup}
    (h : ∀ e ∈ g.elements, e.range.Inside range) :
    ∀ item ∈ g.finish s, item.Found uri ordered range := by
  unfold finish
  split
  · exact List.forall_mem_nil _
  · exact List.forall_mem_map.2 fun e he => ⟨s.inside_locate hs (h e he), rfl⟩

include hs in
theorem ConstantGroup.found_finish {g : ConstantGroup}
    (h : ∀ e ∈ g.elements, e.range.Inside range) :
    ∀ item ∈ g.finish s, item.Found uri ordered range := by
  unfold finish
  split
  · exact List.forall_mem_nil _
  · split <;> exact List.forall_mem_map.2 fun e he => ⟨s.inside_locate hs (h e he), rfl⟩

include hrange in
theorem ElementEntry.found_finish (e : ElementEntry) :
    ∀ item ∈ e.finish range, item.Found uri ordered range := by
  unfold finish
  split
  · exact List.forall_mem_singleton.2 ⟨Range.inside_self hrange, rfl⟩
  · exact List.forall_mem_nil _

include hs in
theorem FunctionCall.found_plain {c : FunctionCall} (h : c.Inside ordered range) (name : String)
    {callee : Range} (hcallee : callee.Inside range) :
    ∀ item ∈ c.plain name callee s, item.Found uri ordered range := by
  refine List.forall_mem_append.2 ⟨?_, List.forall_mem_singleton.2 ?_⟩
  · split
    next l hl =>
      split
      · exact List.forall_mem_nil _
      · exact List.forall_mem_singleton.2
          (found_argumentReference hs _ none (h.arguments l hl))
    · exact List.forall_mem_nil _
  · exact ⟨.of_bare (s.inside_locate hs hcallee) rfl rfl, rfl⟩

include hrange hs in
theorem FunctionCall.found_finish {c : FunctionCall} (h : c.Inside ordered range) :
    ∀ item ∈ c.finish range s, item.Found uri ordered range := by
  unfold finish
  split
  · exact List.forall_mem_singleton.2 ⟨trivial, rfl⟩
  next name callee hcallee =>
    split
    next constant hconstant =>
      rw [Option.ite_none_right_eq_some] at hconstant
      obtain ⟨first, quoted, -, -, -, rfl⟩ := exists_of_defined? hconstant.2
      exact List.forall_mem_cons.2 ⟨⟨s.inside_locate hs (Range.inside_self hrange), rfl⟩,
        List.forall_mem_singleton.2 ⟨trivial, rfl⟩⟩
    · exact found_plain hs h name (h.callee _ hcallee)

include hs in
theorem Creation.found_finish {c : Creation} (h : c.Inside ordered range) :
    ∀ item ∈ c.finish range s, item.Found uri ordered range := by
  unfold finish
  split
  · exact List.forall_mem_singleton.2 ⟨trivial, rfl⟩
  next name nameRange hclass =>
    split
    · exact List.forall_mem_singleton.2 ⟨trivial, rfl⟩
    · refine List.forall_mem_append.2 ⟨List.forall_mem_map.2 fun l hl => ?_, ?_⟩
      · exact found_argumentReference hs _ _ (h.arguments l (Option.mem_toList.1 hl))
      · exact List.forall_mem_singleton.2
          ⟨.of_bare (s.inside_locate hs (h.class? _ hclass)) rfl rfl, rfl⟩

include hrange hs in
theorem MemberAccess.found_unnamed (m : MemberAccess) :
    (m.unnamed range s).Found uri ordered range := by
  unfold unnamed
  split
  · refine ⟨Reference.Inside.withScope (.of_bare ?_ rfl rfl) _, rfl⟩
    exact s.inside_locate hs (Range.inside_self hrange)
  · exact ⟨trivial, rfl⟩

include hs in
/-- The reference ends with the name of the member, which is in the access. -/
theorem MemberAccess.found_named {m : MemberAccess} (h : m.Inside uri ordered range)
    (raw : String) {nameRange : Range} (hname : nameRange.Inside range) :
    ∀ item ∈ m.named raw nameRange range s, item.Found uri ordered range := by
  obtain ⟨hmember, hlocation⟩ := hname.upTo
  refine List.forall_mem_append.2 ⟨List.forall_mem_map.2 fun l hl => ?_, ?_⟩
  · exact found_argumentReference hs _ _ (h.arguments l (Option.mem_toList.1 hl))
  · refine List.forall_mem_singleton.2 ⟨Reference.Inside.withScope ?_ _, rfl⟩
    constructor
    case location => exact s.inside_locate hs hlocation
    case member =>
      rintro _ ⟨⟩ _ ⟨⟩
      exact hmember
    case arguments => exact List.forall_mem_nil _
    case inOrder => exact fun _ => .nil

include hrange hs in
theorem MemberAccess.found_finish {m : MemberAccess} (h : m.Inside uri ordered range) :
    ∀ item ∈ m.finish range s, item.Found uri ordered range := by
  refine List.forall_mem_append.2 ⟨fun item hitem => ?_, ?_⟩
  · exact h.scopeReference item (Option.mem_toList.1 hitem)
  · split
    · exact List.forall_mem_singleton.2 (m.found_unnamed hrange hs)
    next raw nameRange hname => exact found_named hs h raw (h.name _ hname)

include hrange in
theorem ArgumentEntries.found_finish {l : ArgumentEntries} (h : l.Inside ordered range position) :
    ∀ item ∈ l.finish range, item.Found uri ordered range :=
  List.forall_mem_singleton.2
    ⟨⟨Range.inside_self hrange, h.arguments, h.inOrder⟩, rfl⟩

theorem Assignment.found_finish (a : Assignment) (s : State) :
    ∀ item ∈ ((a.finish range).run s).1, item.Found uri ordered range := by
  unfold finish
  cases a.target? with
  | none => exact List.forall_mem_singleton.2 ⟨trivial, rfl⟩
  | some target => exact List.forall_mem_singleton.2 ⟨trivial, rfl⟩

include hrange hs in
/-- What a construct turns into lies in its node. Arguments come from the nodes of arguments. -/
theorem Construct.found_finish {construct : Construct}
    (h : construct.Inside uri ordered range position) (hargument : construct.isArgument = false) :
    ∀ item ∈ ((construct.finish range).run s).1, item.Found uri ordered range := by
  have hvalue (types : TypeUnion) :
      ∀ item ∈ [Item.value types range], item.Found uri ordered range :=
    List.forall_mem_singleton.2 ⟨trivial, rfl⟩
  cases construct with
  | namespaceStatement n => exact n.found_finish s
  | useStatement u => exact UseStatement.found_finish hs h
  | useName u => exact UseName.found_finish hrange h
  | «alias» name? =>
    cases name? with
    | none => exact List.forall_mem_nil _
    | some name => exact List.forall_mem_singleton.2 ⟨trivial, rfl⟩
  | classBody c => exact c.found_finish hrange hs
  | nameList l => exact NameList.found_finish hs h
  | enumCase e => exact e.found_finish hrange hs
  | callable c => exact c.found_finish hrange hs
  | captures c => exact List.forall_mem_singleton.2 ⟨trivial, rfl⟩
  | parameter p => exact ParameterEntry.found_finish hs h
  | typeHint t => exact TypeHint.found_finish hrange h
  | properties g => exact PropertyGroup.found_finish hs h
  | constants g => exact ConstantGroup.found_finish hs h
  | element e => exact e.found_finish hrange
  | call c => exact FunctionCall.found_finish (c := c) hrange hs h
  | creation c => exact Creation.found_finish hs h
  | member m => exact MemberAccess.found_finish hrange hs h
  | arguments l => exact ArgumentEntries.found_finish hrange h
  | argument a => cases hargument
  | assignment a =>
    rw [finish, StateT.run_bind, StateT.run_get, pure_bind]
    exact a.found_finish s
  | returned v => exact List.forall_mem_singleton.2 ⟨trivial, rfl⟩
  | group v => exact hvalue _
  | literal type => exact hvalue _
  | binary b => exact hvalue _
  | unary u => exact hvalue _
  | cast c => exact hvalue _
  | conditional c => exact hvalue _
  | loop l => exact List.forall_mem_nil _
  | catchClause c => exact List.forall_mem_nil _
  | globals => exact List.forall_mem_nil _

end Finish

end Extract
end PhpIndex
