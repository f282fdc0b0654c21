import PhpIndex.Extract.Walk
import PhpIndex.Proofs.Extract.Expressions

/-!
# Constructs of every sort

What was shown of each construct, put together for the constructs that a walk keeps open. Only
functions open and close scopes, and no construct turns into one of another sort, so how a node
was entered tells what happens when it is left.
Main statements: `Construct.ensures_accept`, `ensures_offer`, `ensures_hand`.
-/
namespace PhpIndex.Extract
variable {uri : String} {size : Nat}

/-- Imports and documentation comments say nothing about what was found. -/
theorem ensures_imports (imports : State → Imports) :
    Ensures uri size (modify fun s => { s with imports := imports s }) fun _ => True := by
  refine Ensures.modify fun s hs => ?_
  generalize imports s = imports
  exact ⟨{ hs with }, rfl, rfl⟩

theorem ensures_doc (doc? : State → Option DocComment) :
    Ensures uri size (modify fun s => { s with doc? := doc? s }) fun _ => True := by
  refine Ensures.modify fun s hs => ?_
  generalize doc? s = doc?
  exact ⟨{ hs with }, rfl, rfl⟩

namespace NamespaceStatement

theorem ensures_start (braced : Bool) : Ensures uri size (start braced) fun _ => True :=
  (ensures_imports _).bind fun _ _ => Ensures.pure trivial

theorem ensures_accept (n : NamespaceStatement) (item : Item) (place : Place) :
    Ensures uri size (n.accept item place) fun _ => True := by
  unfold accept
  split
  · split
    · exact (ensures_imports _).bind fun _ _ => Ensures.pure trivial
    · exact Ensures.pure trivial
  · exact Ensures.pure trivial

theorem ensures_finish (n : NamespaceStatement) :
    Ensures uri size n.finish fun items => ∀ item ∈ items, item.Sound uri size := by
  unfold finish
  split
  · exact (ensures_imports _).bind fun _ _ => Ensures.pure (List.forall_mem_nil _)
  · exact Ensures.pure (List.forall_mem_nil _)

end NamespaceStatement

namespace Construct

/-- Whether what the construct has taken up is sound. -/
def Sound (uri : String) (size : Nat) : Construct → Prop
  | .useStatement u => u.Sound size
  | .useName u => u.Sound size
  | .nameList l => l.Sound size
  | .callable c => c.Sound
  | .parameter p => p.Sound size
  | .typeHint h => h.Sound uri size
  | .properties g => g.Sound size
  | .constants g => g.Sound size
  | .element e => e.Sound
  | .call c => c.Sound size
  | .creation c => c.Sound size
  | .member m => m.Sound uri size
  | .returned v => v.types.Tidy
  | .group v => v.types.Tidy
  | .binary b => b.Sound
  | .unary u => u.operand.Tidy
  | .cast c => c.types.Tidy
  | .conditional c => c.Sound
  | .catchClause c => c.types.Tidy
  | _ => True

/-- Whether a scope is open for as long as the construct is. -/
def isCallable : Construct → Bool
  | .callable _ => true
  | _ => false

/-- The construct is sound and of the sort of another one. -/
structure Follows (uri : String) (size : Nat) (construct next : Construct) : Prop where
  sound : next.Sound uri size
  sort : next.isCallable = construct.isCallable

theorem follows_withDoc {construct next : Construct} (h : construct.Sound uri size)
    {doc : DocComment} (hdoc : construct.withDoc doc = some next) :
    construct.Follows uri size next := by
  cases construct with
  | callable c =>
    obtain rfl := Option.some.inj hdoc
    exact ⟨{ h with }, rfl⟩
  | classBody c =>
    obtain rfl := Option.some.inj hdoc
    exact ⟨trivial, rfl⟩
  | properties g =>
    obtain rfl := Option.some.inj hdoc
    exact ⟨{ h with }, rfl⟩
  | constants g =>
    obtain rfl := Option.some.inj hdoc
    exact ⟨h, rfl⟩
  | assignment a =>
    obtain rfl := Option.some.inj hdoc
    exact ⟨trivial, rfl⟩
  | call c =>
    obtain rfl := Option.some.inj hdoc
    exact ⟨{ h with }, rfl⟩
  | _ => cases hdoc

theorem ensures_accept {construct : Construct} (h : construct.Sound uri size) {item : Item}
    (hitem : item.Sound uri size) (place : Place) :
    Ensures uri size (construct.accept item place) fun r => construct.Follows uri size r.1 := by
  refine Ensures.bind Ensures.get fun s hs => ?_
  cases construct with
  | namespaceStatement n =>
    exact (n.ensures_accept item place).bind fun _ _ => Ensures.pure ⟨trivial, rfl⟩
  | useStatement u => exact Ensures.pure ⟨UseStatement.sound_accept h hitem, rfl⟩
  | useName u => exact Ensures.pure ⟨UseName.sound_accept h hitem place, rfl⟩
  | «alias» name? =>
    cases item with
    | _ => exact Ensures.pure ⟨trivial, rfl⟩
  | classBody c => exact (c.ensures_accept item place).bind fun _ _ => Ensures.pure ⟨trivial, rfl⟩
  | nameList l => exact Ensures.pure ⟨NameList.sound_accept h hitem place s, rfl⟩
  | enumCase e => exact Ensures.pure ⟨trivial, rfl⟩
  | callable c =>
    exact (Callable.ensures_accept h hitem place).bind fun _ hc => Ensures.pure ⟨hc, rfl⟩
  | captures c => exact Ensures.pure ⟨trivial, rfl⟩
  | parameter p =>
    exact (ParameterEntry.ensures_accept h hitem place).bind fun _ hp => Ensures.pure ⟨hp, rfl⟩
  | typeHint t => exact Ensures.pure ⟨TypeHint.sound_accept h hitem place hs, rfl⟩
  | properties g => exact Ensures.pure ⟨PropertyGroup.sound_accept h hitem place, rfl⟩
  | constants g => exact Ensures.pure ⟨ConstantGroup.sound_accept h hitem, rfl⟩
  | element e => exact Ensures.pure ⟨ElementEntry.sound_accept h item s, rfl⟩
  | call c => exact Ensures.pure ⟨FunctionCall.sound_accept h hitem place, rfl⟩
  | creation c => exact Ensures.pure ⟨Creation.sound_accept h hitem place s, rfl⟩
  | member m => exact Ensures.pure ⟨MemberAccess.sound_accept h hitem place hs, rfl⟩
  | arguments l => exact Ensures.pure ⟨trivial, rfl⟩
  | argument a => exact Ensures.pure ⟨trivial, rfl⟩
  | assignment a => exact Ensures.pure ⟨trivial, rfl⟩
  | returned v => exact Ensures.pure ⟨LastValue.tidy_accept h hitem, rfl⟩
  | group v => exact Ensures.pure ⟨LastValue.tidy_accept h hitem, rfl⟩
  | literal type => exact Ensures.pure ⟨trivial, rfl⟩
  | binary b => exact Ensures.pure ⟨Binary.sound_accept h hitem place, rfl⟩
  | unary u => exact Ensures.pure ⟨Unary.tidy_accept h hitem, rfl⟩
  | cast c => exact Ensures.pure ⟨Cast.tidy_accept h hitem place, rfl⟩
  | conditional c => exact Ensures.pure ⟨Conditional.sound_accept h hitem place, rfl⟩
  | loop l => exact (l.ensures_accept item).bind fun _ _ => Ensures.pure ⟨trivial, rfl⟩
  | catchClause c =>
    exact (CatchClause.ensures_accept h hitem place).bind fun _ hc => Ensures.pure ⟨hc, rfl⟩
  | globals =>
    exact (ensures_acceptGlobal item).bind fun _ _ => Ensures.pure ⟨trivial, rfl⟩

/-- Leaving anything but a function keeps the scopes. -/
theorem ensures_finish {construct : Construct} (h : construct.Sound uri size)
    (hsort : construct.isCallable = false) {range : Range} (hrange : range.Within size) :
    Ensures uri size (construct.finish range) fun items =>
      ∀ item ∈ items, item.Sound uri size := by
  have hvalue {types : TypeUnion} (htypes : types.Tidy) :
      ∀ item ∈ [Item.value types range], item.Sound uri size :=
    List.forall_mem_singleton.2 ⟨htypes, hrange⟩
  refine Ensures.bind Ensures.get fun s hs => ?_
  cases construct with
  | namespaceStatement n => exact n.ensures_finish
  | useStatement u => exact UseStatement.ensures_finish h
  | useName u => exact Ensures.pure (UseName.sound_finish h hrange)
  | «alias» name? =>
    cases name? with
    | none => exact Ensures.pure (List.forall_mem_nil _)
    | some name => exact Ensures.pure (List.forall_mem_singleton.2 trivial)
  | classBody c => exact c.ensures_finish hrange
  | nameList l => exact Ensures.pure (NameList.sound_finish h hs)
  | enumCase e => exact Ensures.pure (e.sound_finish range hs)
  | callable c => cases hsort
  | captures c => exact c.ensures_finish
  | parameter p => exact Ensures.pure (ParameterEntry.sound_finish h hs)
  | typeHint t => exact Ensures.pure (TypeHint.sound_finish h hrange)
  | properties g => exact Ensures.pure (PropertyGroup.sound_finish h hs)
  | constants g => exact Ensures.pure (ConstantGroup.sound_finish h hs)
  | element e => exact Ensures.pure (ElementEntry.sound_finish h hrange)
  | call c => exact Ensures.pure (FunctionCall.sound_finish h hrange hs)
  | creation c => exact Ensures.pure (Creation.sound_finish h hrange hs)
  | member m => exact Ensures.pure (MemberAccess.sound_finish h hrange hs)
  | arguments l => exact Ensures.pure (List.forall_mem_singleton.2 hrange)
  | argument a => exact Ensures.pure (List.forall_mem_singleton.2 trivial)
  | assignment a => exact a.ensures_finish hrange
  | returned v => exact Ensures.pure (List.forall_mem_singleton.2 h)
  | group v => exact Ensures.pure (hvalue h)
  | literal type => exact Ensures.pure (hvalue (tidy_builtin type))
  | binary b => exact Ensures.pure (hvalue (Binary.tidy_types h))
  | unary u => exact Ensures.pure (hvalue (Unary.tidy_types h))
  | cast c => exact Ensures.pure (hvalue h)
  | conditional c => exact Ensures.pure (hvalue (Conditional.tidy_types h))
  | loop l => exact Ensures.pure (List.forall_mem_nil _)
  | catchClause c => exact Ensures.pure (List.forall_mem_nil _)
  | globals => exact Ensures.pure (List.forall_mem_nil _)

end Construct

namespace Role

theorem ne_variable_of_ofKind? {kind : String} {role : Role} (h : ofKind? kind = some role) :
    role ≠ .member .variable := by
  have hall : ∀ p ∈ table, p.2 ≠ .member .variable := by decide
  obtain ⟨front, back, htable, -⟩ := List.lookup_eq_some_iff.1 h
  refine hall (kind, role) ?_
  rw [htable]
  exact List.mem_append_right front List.mem_cons_self

/-- Anything but a function is opened without a scope. -/
theorem ensures_start {role : Role} (hsort : ∀ sort, role ≠ .callable sort)
    (hkind : role ≠ .member .variable) (tree : SyntaxTree) :
    Ensures uri size (role.start tree) fun construct =>
      construct.Sound uri size ∧ construct.isCallable = false := by
  have hnone {α : Type} (p : α → Prop) : ∀ a ∈ (none : Option α), p a := fun _ h => by cases h
  cases role with
  | namespaceStatement =>
    exact (NamespaceStatement.ensures_start _).map fun _ _ => ⟨trivial, rfl⟩
  | classBody sort? => exact (ClassBody.ensures_start sort?).map fun _ _ => ⟨trivial, rfl⟩
  | callable sort => exact absurd rfl (hsort sort)
  | nameList role => exact Ensures.pure ⟨List.forall_mem_nil _, rfl⟩
  | useStatement => exact Ensures.pure ⟨List.forall_mem_nil _, rfl⟩
  | useName => exact Ensures.pure ⟨hnone _, rfl⟩
  | parameter promoted variadic => exact Ensures.pure ⟨⟨TypeUnion.tidy_empty, hnone _⟩, rfl⟩
  | typeHint nullable =>
    exact Ensures.pure ⟨⟨TypeUnion.tidy_empty, List.forall_mem_nil _⟩, rfl⟩
  | properties => exact Ensures.pure ⟨⟨TypeUnion.tidy_empty, List.forall_mem_nil _⟩, rfl⟩
  | constants => exact Ensures.pure ⟨List.forall_mem_nil _, rfl⟩
  | element => exact Ensures.pure ⟨hnone _, rfl⟩
  | call => exact Ensures.pure ⟨⟨hnone _, hnone _⟩, rfl⟩
  | creation => exact Ensures.pure ⟨⟨hnone _, TypeUnion.tidy_empty, hnone _⟩, rfl⟩
  | member kind =>
    have hvariable : kind ≠ .variable := fun h => hkind (congrArg Role.member h)
    exact Ensures.pure ⟨⟨hvariable, hnone _, hnone _, hnone _, hnone _⟩, rfl⟩
  | returned => exact Ensures.pure ⟨TypeUnion.tidy_empty, rfl⟩
  | group => exact Ensures.pure ⟨TypeUnion.tidy_empty, rfl⟩
  | binary => exact Ensures.pure ⟨⟨TypeUnion.tidy_empty, TypeUnion.tidy_empty⟩, rfl⟩
  | unary => exact Ensures.pure ⟨TypeUnion.tidy_empty, rfl⟩
  | cast => exact Ensures.pure ⟨TypeUnion.tidy_empty, rfl⟩
  | conditional =>
    exact Ensures.pure ⟨⟨TypeUnion.tidy_empty, hnone _, TypeUnion.tidy_empty⟩, rfl⟩
  | catchClause => exact Ensures.pure ⟨TypeUnion.tidy_empty, rfl⟩
  | _ => exact Ensures.pure ⟨trivial, rfl⟩

end Role

/-! ## Handing items around -/

namespace Open

def Sound (uri : String) (size : Nat) (around : Open) : Prop :=
  ∀ construct? ∈ around, ∀ construct ∈ construct?, construct.Sound uri size

/-- Which of the nodes around are functions. -/
def sorts (around : Open) : List Bool := around.map (fun c => c.any Construct.isCallable)

/-- What is open now is sound, and at each level it is of the sort that it was before. -/
structure Follows (uri : String) (size : Nat) (around next : Open) : Prop where
  sound : next.Sound uri size
  sorts : next.sorts = around.sorts

theorem Follows.trans {a b c : Open} (hab : a.Follows uri size b) (hbc : b.Follows uri size c) :
    a.Follows uri size c :=
  ⟨hbc.sound, hbc.sorts.trans hab.sorts⟩

theorem Follows.cons {around next : Open} (h : around.Follows uri size next)
    {construct? next? : Option Construct} (hnext : ∀ c ∈ next?, c.Sound uri size)
    (hsort : next?.any Construct.isCallable = construct?.any Construct.isCallable) :
    Open.Follows uri size (construct? :: around) (next? :: next) := by
  constructor
  case sound => exact List.forall_mem_cons.2 ⟨hnext, h.sound⟩
  case sorts =>
    have hrest := h.sorts
    unfold Open.sorts at hrest ⊢
    rw [List.map_cons, List.map_cons, hsort, hrest]

end Open

theorem ensures_offer {item : Item} (hitem : item.Sound uri size) (place : Place)
    {around : Open} (h : around.Sound uri size) :
    Ensures uri size (offer item place around) (around.Follows uri size) := by
  induction around generalizing place with
  | nil => exact Ensures.pure ⟨h, rfl⟩
  | cons construct? outer ih =>
    obtain ⟨hconstruct, houter⟩ := List.forall_mem_cons.1 h
    cases construct? with
    | none =>
      unfold offer
      split
      · exact Ensures.pure ⟨h, rfl⟩
      · exact (ih .deeper houter).bind fun _ hnext => Ensures.pure (hnext.cons hconstruct rfl)
    | some construct =>
      have hself := hconstruct construct rfl
      refine (Construct.ensures_accept hself hitem place).bind fun answer hnext => ?_
      obtain ⟨next, taken⟩ := answer
      have hsome : ∀ c ∈ some next, c.Sound uri size := by
        rintro c ⟨⟩
        exact hnext.sound
      simp only
      split
      · exact Ensures.pure (Open.Follows.cons ⟨houter, rfl⟩ hsome hnext.sort)
      · exact (ih .deeper houter).bind fun _ hrest =>
          Ensures.pure (hrest.cons hsome hnext.sort)

theorem ensures_hand {items : List Item} (hitems : ∀ item ∈ items, item.Sound uri size)
    (field? : Option String) {around : Open} (h : around.Sound uri size) :
    Ensures uri size (hand items field? around) (around.Follows uri size) := by
  unfold hand
  induction items generalizing around with
  | nil => exact Ensures.pure ⟨h, rfl⟩
  | cons item rest ih =>
    obtain ⟨hitem, hrest⟩ := List.forall_mem_cons.1 hitems
    rw [List.foldlM_cons]
    have hfirst : Ensures uri size (do
        modify fun s => s.record item
        offer item (.child field?) around) (around.Follows uri size) :=
      (Ensures.modify fun s hs => ⟨hs.record hitem, s.keeps_record item⟩).bind fun _ _ =>
        ensures_offer hitem (.child field?) h
    refine hfirst.bind fun next hnext s hs => ?_
    obtain ⟨hpost, hkept⟩ := ih hrest hnext.sound s hs
    exact ⟨hnext.trans hpost, hkept⟩

/-- A documentation comment changes no sort. -/
theorem ensures_takeDoc (kind : String) {construct? : Option Construct}
    (h : ∀ c ∈ construct?, c.Sound uri size) :
    Ensures uri size (takeDoc kind construct?) fun next? =>
      (∀ c ∈ next?, c.Sound uri size) ∧
        next?.any Construct.isCallable = construct?.any Construct.isCallable := by
  unfold takeDoc
  refine Ensures.bind Ensures.get fun s _ => ?_
  simp only
  split
  next blank doc htakes hdoc =>
    refine (ensures_doc fun _ => none).bind fun _ _ => Ensures.pure ?_
    cases construct? with
    | none => cases htakes
    | some construct =>
      have hsome : (construct.withDoc doc).isSome := by
        rw [construct.isSome_withDoc doc {}]
        exact Option.isSome_of_mem htakes
      obtain ⟨next, hnext⟩ := Option.isSome_iff_exists.1 hsome
      have hfollows := Construct.follows_withDoc (h construct rfl) hnext
      have hbind : (some construct).bind (Construct.withDoc doc) = some next := hnext
      rw [hbind]
      refine ⟨?_, hfollows.sort⟩
      rintro c ⟨⟩
      exact hfollows.sound
  · exact Ensures.pure ⟨h, rfl⟩
  · split
    · exact (ensures_doc fun _ => none).bind fun _ _ => Ensures.pure ⟨h, rfl⟩
    · exact Ensures.pure ⟨h, rfl⟩

end PhpIndex.Extract
