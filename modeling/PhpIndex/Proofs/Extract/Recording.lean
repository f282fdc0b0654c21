import PhpIndex.Proofs.Extract.Steps
import PhpIndex.Proofs.Extract.Walk

/-!
# What a reading records

Constructs are opened, take up items and are left without a word about the references found so
far; these grow by the items that are handed around, and by nothing else. An item that tells a
scope tells the innermost one of the state in which its node was left. The items of one sort differ
in what they tell; which sorts of items a construct turns into when it is left is known from the
construct alone, up to the uses of class names that it keeps.
Main statements: `Construct.sort_finish`, `ample_still`, `references_hand`,
`Construct.scoped_finish`.
-/
namespace PhpIndex.Extract

/-! ## Sorts of items -/

inductive ItemSort where
  | token
  | name
  | type
  | modifier
  | value
  | reference
  | symbol
  | parameter
  | argument
  | arguments
  | names
  | useClause
  | alias
  | element
  | returned
  | captured
  deriving DecidableEq

def Item.sort : Item → ItemSort
  | .token _ => .token
  | .name .. => .name
  | .type .. => .type
  | .modifier _ => .modifier
  | .value .. => .value
  | .reference .. => .reference
  | .symbol _ => .symbol
  | .parameter _ => .parameter
  | .argument _ => .argument
  | .arguments _ => .arguments
  | .names .. => .names
  | .useClause _ => .useClause
  | .alias _ => .alias
  | .element _ => .element
  | .returned _ => .returned
  | .captured => .captured

/-- The sorts of items that a construct may turn into. -/
def Construct.yields : Construct → List ItemSort
  | .namespaceStatement _ => []
  | .useStatement _ => [.reference]
  | .useName _ => [.useClause]
  | .alias _ => [.alias]
  | .classBody _ => [.value, .symbol]
  | .nameList _ => [.reference, .names]
  | .enumCase _ => [.symbol]
  | .callable _ => [.value, .symbol]
  | .captures _ => [.captured]
  | .parameter _ => [.symbol, .parameter]
  | .typeHint _ => [.reference, .type]
  | .properties _ => [.symbol]
  | .constants _ => [.symbol]
  | .element _ => [.element]
  | .call _ => [.value, .symbol, .reference]
  | .creation _ => [.value, .reference]
  | .member _ => [.value, .reference]
  | .arguments _ => [.arguments]
  | .argument _ => [.argument]
  | .returned _ => [.returned]
  | .loop _ => []
  | .catchClause _ => []
  | .globals => []
  | _ => [.value]

/-! ## Single constructs -/

theorem ClassBody.sort_finish (c : ClassBody) (range : Range) (s : State) :
    ∀ item ∈ ((c.finish range).run s).1, item.sort ∈ (Construct.classBody c).yields := by
  simp only [finish, StateT.run_bind, StateT.run_get, StateT.run_set, pure_bind]
  split
  · exact List.forall_mem_singleton.2 List.mem_cons_self
  · exact List.forall_mem_nil _
  · exact List.forall_mem_singleton.2 (List.mem_cons_of_mem _ List.mem_cons_self)

theorem Callable.sort_finish (c : Callable) (range : Range) (s : State) :
    ∀ item ∈ ((c.finish range).run s).1, item.sort ∈ (Construct.callable c).yields := by
  have hsymbol (x : Symbol) : (Item.symbol x).sort ∈ (Construct.callable c).yields :=
    List.mem_cons_of_mem _ List.mem_cons_self
  simp only [finish, StateT.run_bind, StateT.run_get, StateT.run_modify, pure_bind]
  split
  · exact List.forall_mem_singleton.2 List.mem_cons_self
  · exact List.forall_mem_singleton.2 List.mem_cons_self
  · exact List.forall_mem_nil _
  · exact List.forall_mem_singleton.2 (hsymbol _)
  · split
    · exact List.forall_mem_nil _
    · exact List.forall_mem_singleton.2 (hsymbol _)

theorem ParameterEntry.sort_finish (p : ParameterEntry) (s : State) :
    ∀ item ∈ p.finish s, item.sort ∈ (Construct.parameter p).yields := by
  have hparameter (q : Parameter) : (Item.parameter q).sort ∈ (Construct.parameter p).yields :=
    List.mem_cons_of_mem _ List.mem_cons_self
  unfold finish
  split
  · exact List.forall_mem_nil _
  · simp only
    split
    · exact List.forall_mem_singleton.2 (hparameter _)
    · split
      · exact List.forall_mem_cons.2
          ⟨List.mem_cons_self, List.forall_mem_singleton.2 (hparameter _)⟩
      · exact List.forall_mem_singleton.2 (hparameter _)

theorem FunctionCall.sort_finish (c : FunctionCall) (range : Range) (s : State) :
    ∀ item ∈ c.finish range s, item.sort ∈ (Construct.call c).yields := by
  have hvalue (types : TypeUnion) (range : Range) :
      (Item.value types range).sort ∈ (Construct.call c).yields := List.mem_cons_self
  have hsymbol (x : Symbol) : (Item.symbol x).sort ∈ (Construct.call c).yields :=
    List.mem_cons_of_mem _ List.mem_cons_self
  have hreference (r : Reference) (value : TypeUnion) :
      (Item.reference r value).sort ∈ (Construct.call c).yields :=
    List.mem_cons_of_mem _ (List.mem_cons_of_mem _ List.mem_cons_self)
  unfold finish
  split
  · exact List.forall_mem_singleton.2 (hvalue _ _)
  · split
    · exact List.forall_mem_cons.2 ⟨hsymbol _, List.forall_mem_singleton.2 (hvalue _ _)⟩
    · refine List.forall_mem_append.2 ⟨?_, List.forall_mem_singleton.2 (hreference _ _)⟩
      split
      · split
        · exact List.forall_mem_nil _
        · exact List.forall_mem_singleton.2 (hreference _ _)
      · exact List.forall_mem_nil _

theorem Creation.sort_finish (c : Creation) (range : Range) (s : State) :
    ∀ item ∈ c.finish range s, item.sort ∈ (Construct.creation c).yields := by
  have hreference (r : Reference) (value : TypeUnion) :
      (Item.reference r value).sort ∈ (Construct.creation c).yields :=
    List.mem_cons_of_mem _ List.mem_cons_self
  unfold finish
  split
  · exact List.forall_mem_singleton.2 List.mem_cons_self
  · split
    · exact List.forall_mem_singleton.2 List.mem_cons_self
    · exact List.forall_mem_append.2 ⟨List.forall_mem_map.2 fun _ _ => hreference _ _,
        List.forall_mem_singleton.2 (hreference _ _)⟩

theorem MemberAccess.sort_finish {m : MemberAccess}
    (h : ∀ item ∈ m.scopeReference?, item.sort = .reference) (range : Range) (s : State) :
    ∀ item ∈ m.finish range s, item.sort ∈ (Construct.member m).yields := by
  have hreference (r : Reference) (value : TypeUnion) :
      (Item.reference r value).sort ∈ (Construct.member m).yields :=
    List.mem_cons_of_mem _ List.mem_cons_self
  refine List.forall_mem_append.2 ⟨fun item hitem => ?_, ?_⟩
  · rw [h item (Option.mem_toList.1 hitem)]
    exact List.mem_cons_of_mem _ List.mem_cons_self
  · split
    · refine List.forall_mem_singleton.2 ?_
      unfold unnamed
      split
      · exact hreference _ _
      · exact List.mem_cons_self
    · exact List.forall_mem_append.2 ⟨List.forall_mem_map.2 fun _ _ => hreference _ _,
        List.forall_mem_singleton.2 (hreference _ _)⟩

theorem UseStatement.sort_finish (u : UseStatement) (s : State) :
    ∀ item ∈ (u.finish.run s).1, item.sort ∈ (Construct.useStatement u).yields := by
  unfold finish
  induction u.clauses generalizing s with
  | nil => exact List.forall_mem_nil _
  | cons c rest ih =>
    rw [List.mapM_cons]
    exact List.forall_mem_cons.2 ⟨List.mem_cons_self, ih ((u.register c).run s).2⟩

/-! ## All constructs -/

theorem Construct.sort_finish {construct : Construct}
    (h : construct.Holding fun item => item.sort = .reference) (range : Range) (s : State) :
    ∀ item ∈ ((construct.finish range).run s).1, item.sort ∈ construct.yields := by
  cases construct with
  | namespaceStatement n =>
    simp only [finish, NamespaceStatement.finish, StateT.run_bind, StateT.run_get, pure_bind]
    split <;> exact List.forall_mem_nil _
  | useStatement u => exact u.sort_finish s
  | useName u =>
    change ∀ item ∈ u.finish range, item.sort ∈ (Construct.useName u).yields
    unfold UseName.finish
    split
    · exact List.forall_mem_singleton.2 List.mem_cons_self
    · exact List.forall_mem_nil _
  | «alias» name? =>
    cases name? with
    | none => exact List.forall_mem_nil _
    | some name => exact List.forall_mem_singleton.2 List.mem_cons_self
  | classBody c => exact c.sort_finish range s
  | nameList l =>
    exact List.forall_mem_append.2 ⟨List.forall_mem_map.2 fun _ _ => List.mem_cons_self,
      List.forall_mem_singleton.2 (List.mem_cons_of_mem _ List.mem_cons_self)⟩
  | enumCase e =>
    change ∀ item ∈ e.finish range s, item.sort ∈ (Construct.enumCase e).yields
    unfold EnumCase.finish
    split
    · exact List.forall_mem_singleton.2 List.mem_cons_self
    · exact List.forall_mem_nil _
  | callable c => exact c.sort_finish range s
  | parameter p => exact p.sort_finish s
  | typeHint t =>
    refine List.forall_mem_append.2 ⟨fun item hitem => ?_,
      List.forall_mem_singleton.2 (List.mem_cons_of_mem _ List.mem_cons_self)⟩
    rw [h item hitem]
    exact List.mem_cons_self
  | properties g =>
    change ∀ item ∈ g.finish s, item.sort ∈ (Construct.properties g).yields
    unfold PropertyGroup.finish
    split
    · exact List.forall_mem_nil _
    · exact List.forall_mem_map.2 fun _ _ => List.mem_cons_self
  | constants g =>
    change ∀ item ∈ g.finish s, item.sort ∈ (Construct.constants g).yields
    unfold ConstantGroup.finish
    split
    · exact List.forall_mem_nil _
    · split <;> exact List.forall_mem_map.2 fun _ _ => List.mem_cons_self
  | element e =>
    change ∀ item ∈ e.finish range, item.sort ∈ (Construct.element e).yields
    unfold ElementEntry.finish
    split
    · exact List.forall_mem_singleton.2 List.mem_cons_self
    · exact List.forall_mem_nil _
  | call c => exact c.sort_finish range s
  | creation c => exact c.sort_finish range s
  | member m => exact MemberAccess.sort_finish h range s
  | assignment a =>
    simp only [finish, Assignment.finish, StateT.run_bind, StateT.run_get, pure_bind]
    cases a.target? with
    | none => exact List.forall_mem_singleton.2 List.mem_cons_self
    | some target => exact List.forall_mem_singleton.2 List.mem_cons_self
  | loop l => exact List.forall_mem_nil _
  | catchClause c => exact List.forall_mem_nil _
  | globals => exact List.forall_mem_nil _
  | _ => exact List.forall_mem_singleton.2 List.mem_cons_self

/-- A construct that keeps no uses of class names holds nothing back. -/
theorem Construct.holding_of_not_yields {construct : Construct} {P : Item → Prop}
    (h : .reference ∉ construct.yields) : construct.Holding P := by
  cases construct with
  | typeHint t => exact absurd List.mem_cons_self h
  | member m => exact absurd (List.mem_cons_of_mem _ List.mem_cons_self) h
  | _ => trivial

/-! ## Steps that record nothing -/

/-- Whether both are states of one reading with the same findings, and the document has its place
where it had it. -/
structure State.Still (s s' : State) : Prop where
  uri : s'.uri = s.uri
  source : s'.source = s.source
  symbols : s'.symbols = s.symbols
  references : s'.references = s.references
  globals : s'.globals.location = s.globals.location

theorem ample_still : Ample State.Still where
  refl _ := ⟨rfl, rfl, rfl, rfl, rfl⟩
  trans hab hbc :=
    ⟨hbc.uri.trans hab.uri, hbc.source.trans hab.source, hbc.symbols.trans hab.symbols,
      hbc.references.trans hab.references, hbc.globals.trans hab.globals⟩
  imports _ _ := ⟨rfl, rfl, rfl, rfl, rfl⟩
  doc _ _ := ⟨rfl, rfl, rfl, rfl, rfl⟩
  bind s name types := by
    unfold State.bind
    split <;> exact ⟨rfl, rfl, rfl, rfl, rfl⟩
  parent s parent? := by
    unfold State.modifyClass
    split <;> exact ⟨rfl, rfl, rfl, rfl, rfl⟩
  name s name := by
    unfold State.modifyClass
    split <;> exact ⟨rfl, rfl, rfl, rfl, rfl⟩
  openScope _ _ := ⟨rfl, rfl, rfl, rfl, rfl⟩
  closeScope s := by
    unfold State.closeScope
    split <;> exact ⟨rfl, rfl, rfl, rfl, rfl⟩
  openClass _ _ := ⟨rfl, rfl, rfl, rfl, rfl⟩
  closeClass _ := ⟨rfl, rfl, rfl, rfl, rfl⟩

/-! ## References that are recorded -/

/-- The reference that is recorded with an item. -/
def Item.recorded? : Item → Option Reference
  | .reference r _ => if r.location.isEmpty then none else some r
  | _ => none

theorem Item.exists_of_recorded? {item : Item} {r : Reference} (h : item.recorded? = some r) :
    ∃ value, item = .reference r value := by
  cases item with
  | reference r' value =>
    unfold recorded? at h
    simp only at h
    split at h
    · cases h
    · cases h
      exact ⟨value, rfl⟩
  | _ => cases h

theorem State.references_record (s : State) (item : Item) :
    (s.record item).references = s.references ++ item.recorded?.toList := by
  cases item with
  | reference r value =>
    unfold State.record Item.recorded?
    by_cases hempty : r.location.isEmpty
    · simp [hempty]
    · simp [hempty]
  | _ => exact (List.append_nil _).symm

theorem State.globals_record (s : State) (item : Item) : (s.record item).globals = s.globals := by
  unfold State.record
  split
  · rfl
  · split <;> rfl
  · rfl

/-- Handing items around records their references, in order. -/
theorem references_hand (items : List Item) (field? : Option String) (around : Open) (s : State) :
    ((hand items field? around).run s).2.references =
        s.references ++ items.filterMap Item.recorded? ∧
      ((hand items field? around).run s).2.globals.location = s.globals.location := by
  unfold hand
  induction items generalizing around s with
  | nil => exact ⟨(List.append_nil _).symm, rfl⟩
  | cons item rest ih =>
    have hstill := ample_still.offer item (.child field?) around (s.record item)
    rw [List.foldlM_cons]
    refine ⟨(ih _ _).1.trans ?_, (ih _ _).2.trans (hstill.globals.trans ?_)⟩
    · refine (congrArg (· ++ _) (hstill.references.trans (s.references_record item))).trans ?_
      rw [List.append_assoc]
      congr 1
      cases hrecorded : item.recorded? with
      | none => rw [List.filterMap_cons_none hrecorded]; rfl
      | some r => rw [List.filterMap_cons_some hrecorded]; rfl
    · rw [s.globals_record]

/-! ## The scopes that items tell -/

/-- Whether the item tells no scope but one of this range. -/
def Item.Scoped (range? : Option Range) : Item → Prop
  | .reference r _ => r.scopeRange? = none ∨ r.scopeRange? = range?
  | _ => True

theorem Item.Scoped.of_none {item : Item} (h : item.Scoped none) (range? : Option Range) :
    item.Scoped range? := by
  cases item with
  | reference r value => exact .inl (h.elim id id)
  | _ => trivial

theorem Item.scoped_of_sort {item : Item} (h : item.sort ≠ .reference) (range? : Option Range) :
    item.Scoped range? := by
  cases item with
  | reference r value => exact absurd rfl h
  | _ => trivial

theorem Item.recorded?_of_sort {item : Item} (h : item.sort ≠ .reference) :
    item.recorded? = none := by
  cases item with
  | reference r value => exact absurd rfl h
  | _ => rfl

section Finish
variable {range? : Option Range}

theorem UseStatement.scoped_finish (u : UseStatement) (s : State) :
    ∀ item ∈ (u.finish.run s).1, item.Scoped range? := by
  unfold finish
  induction u.clauses generalizing s with
  | nil => exact List.forall_mem_nil _
  | cons c rest ih =>
    rw [List.mapM_cons]
    exact List.forall_mem_cons.2 ⟨.inl rfl, ih ((u.register c).run s).2⟩

theorem scoped_argumentReference (callee : TypeUnion) (scope? : Option TypeUnion)
    (l : ArgumentList) (s : State) :
    (argumentReference callee scope? l s).Scoped s.innermost.range? := .inr rfl

theorem FunctionCall.scoped_finish (c : FunctionCall) (range : Range) (s : State) :
    ∀ item ∈ c.finish range s, item.Scoped s.innermost.range? := by
  have hplain (name : String) (callee : Range) :
      ∀ item ∈ c.plain name callee s, item.Scoped s.innermost.range? := by
    refine List.forall_mem_append.2 ⟨?_, List.forall_mem_singleton.2 (.inl rfl)⟩
    split
    · split
      · exact List.forall_mem_nil _
      · exact List.forall_mem_singleton.2 (scoped_argumentReference _ _ _ s)
    · exact List.forall_mem_nil _
  unfold finish
  split
  · exact List.forall_mem_singleton.2 trivial
  · split
    · exact List.forall_mem_cons.2 ⟨trivial, List.forall_mem_singleton.2 trivial⟩
    · exact hplain _ _

theorem Creation.scoped_finish (c : Creation) (range : Range) (s : State) :
    ∀ item ∈ c.finish range s, item.Scoped s.innermost.range? := by
  unfold finish
  split
  · exact List.forall_mem_singleton.2 trivial
  · split
    · exact List.forall_mem_singleton.2 trivial
    · exact List.forall_mem_append.2
        ⟨List.forall_mem_map.2 fun l _ => scoped_argumentReference _ _ l s,
          List.forall_mem_singleton.2 (.inl rfl)⟩

theorem Reference.scopeRange?_withScope (r : Reference) (scope : TypeUnion) :
    (r.withScope scope).scopeRange? = r.scopeRange? := by
  unfold Reference.withScope
  split <;> rfl

theorem MemberAccess.scoped_finish {m : MemberAccess}
    (hrefs : ∀ item ∈ m.scopeReference?, item.Scoped none) (range : Range) (s : State) :
    ∀ item ∈ m.finish range s, item.Scoped s.innermost.range? := by
  refine List.forall_mem_append.2 ⟨fun item hitem => ?_, ?_⟩
  · exact (hrefs item (Option.mem_toList.1 hitem)).of_none _
  · split
    · refine List.forall_mem_singleton.2 ?_
      unfold unnamed
      split
      · exact .inr (Reference.scopeRange?_withScope _ _)
      · trivial
    · exact List.forall_mem_append.2
        ⟨List.forall_mem_map.2 fun l _ => scoped_argumentReference _ _ l s,
          List.forall_mem_singleton.2 (.inr (Reference.scopeRange?_withScope _ _))⟩

theorem Callable.scoped_finish (c : Callable) (range : Range) (s : State) :
    ∀ item ∈ ((c.finish range).run s).1, item.recorded? = none := by
  have hyields : ∀ sort ∈ (Construct.callable c).yields, sort ≠ .reference := by
    simp [Construct.yields]
  exact fun item hitem =>
    Item.recorded?_of_sort (hyields _ (c.sort_finish range s item hitem))

/-- What a construct turns into tells no other scope than the one around it. -/
theorem Construct.scoped_finish {construct : Construct} (h : construct.Holding (Item.Scoped none))
    (hsort : construct.isCallable = false) (range : Range) (s : State) :
    ∀ item ∈ ((construct.finish range).run s).1, item.Scoped s.innermost.range? := by
  have hplain (hyields : .reference ∉ construct.yields) :
      ∀ item ∈ ((construct.finish range).run s).1, item.Scoped s.innermost.range? :=
    fun item hitem => Item.scoped_of_sort (fun heq => hyields
      (heq ▸ sort_finish (holding_of_not_yields hyields) range s item hitem)) _
  cases construct with
  | useStatement u => exact u.scoped_finish s
  | nameList l =>
    exact List.forall_mem_append.2
      ⟨List.forall_mem_map.2 fun _ _ => .inl rfl, List.forall_mem_singleton.2 trivial⟩
  | callable c => cases hsort
  | typeHint t =>
    exact List.forall_mem_append.2
      ⟨fun item hitem => (h item hitem).of_none _, List.forall_mem_singleton.2 trivial⟩
  | call c => exact c.scoped_finish range s
  | creation c => exact c.scoped_finish range s
  | member m => exact MemberAccess.scoped_finish h range s
  | _ => exact hplain (by simp [yields])

end Finish
end PhpIndex.Extract
