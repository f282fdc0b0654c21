import PhpIndex.Proofs.Extract.Offers
import PhpIndex.Proofs.Extract.Typing

/-!
# Readings under a discipline

A lawful discipline is kept by the reading of any tree whose spellings meet it where they stand:
the names and keywords at their nodes, and what documentation says where it is heeded, that is at
the node that is left then. The words for the class around are replaced inside a class that has a
name, but neither in imports nor in the name of the class itself.
Main statement: `yields_walk`.
-/
namespace PhpIndex.Extract

/-! ## What no item changes -/

/-- Whether no item changes what is seen of the construct that it is offered to. -/
def Lasting (view : Construct → β) : Prop := ∀ construct item place s,
  view ((construct.accept item place).run s).1.1 = view construct

namespace Lasting
variable {view : Construct → β} (hview : Lasting view)
include hview

theorem map_offer (item : Item) (place : Place) (around : Open) (s : State) :
    ((offer item place around).run s).1.map (Option.map view) = around.map (Option.map view) := by
  induction around generalizing place s with
  | nil => rfl
  | cons construct? outer ih =>
    cases construct? with
    | none =>
      unfold offer
      split
      · rfl
      · exact congrArg (none :: ·) (ih .deeper s)
    | some construct =>
      have hself := hview construct item place s
      unfold offer
      rcases hrun : (construct.accept item place).run s with ⟨⟨next, taken⟩, s'⟩
      rw [hrun] at hself
      rw [run_bind_eq hrun, List.map_cons, Option.map_some, ← hself]
      simp only
      split
      · rfl
      · exact congrArg (some (view next) :: ·) (ih .deeper s')

theorem map_hear (around : Open) (offers : List Offer) :
    (hear around offers).map (Option.map view) = around.map (Option.map view) := by
  unfold hear
  induction offers generalizing around with
  | nil => rfl
  | cons o rest ih => exact (ih _).trans (hview.map_offer o.item o.place around o.state)

theorem map_walk (tree : SyntaxTree) (surroundings : Surroundings) (around : Open) (s : State) :
    ((walk surroundings around tree).run s).1.map (Option.map view) =
      around.map (Option.map view) := by
  rw [run_walk_eq_hear]
  exact hview.map_hear around _

end Lasting

theorem lasting_isMember : Lasting Construct.isMember := by
  intro construct item place s
  cases construct with
  | «alias» name? =>
    cases item with
    | _ => rfl
  | _ => rfl

theorem Callable.doc?_accept (c : Callable) (item : Item) (place : Place) (s : State) :
    ((c.accept item place).run s).1.1.doc? = c.doc? := by
  have hfragment : (c.acceptFragment item place).1.doc? = c.doc? := by
    unfold acceptFragment
    split <;> rfl
  have hparameter (p : Parameter) : ((c.acceptParameter p).run s).1.doc? = c.doc? := by
    unfold acceptParameter
    split
    · split <;> rfl
    · rfl
  unfold accept
  split
  · split
    · rfl
    · exact hfragment
  · split <;> rfl
  · exact hparameter _
  · split <;> rfl
  · rfl
  · rfl
  · exact hfragment

theorem lasting_heard? : Lasting Construct.heard? := by
  intro construct item place s
  cases construct with
  | callable c =>
    exact congrArg (fun d : Option DocComment => some (d.getD {})) (c.doc?_accept item place s)
  | «alias» name? =>
    cases item with
    | _ => rfl
  | _ => rfl

/-! ## What is open -/

namespace Open

/-- The construct of the node right around. -/
def right? (around : Open) : Option Construct := around.head?.join

/-- Whether an import is being read. -/
def importing (around : Open) : Bool :=
  around.any fun construct? => construct?.any Construct.isImport

/-- Whether what stands right here may be what a member is taken from. -/
def accessing (around : Open) : Bool := around.right?.any Construct.isMember

theorem accessing_of_map {around next : Open}
    (h : next.map (Option.map Construct.isMember) = around.map (Option.map Construct.isMember)) :
    next.accessing = around.accessing := by
  have hseen (around : Open) : around.accessing =
      ((around.map (Option.map Construct.isMember)).head?.join).getD false := by
    unfold accessing right?
    match around with
    | [] => rfl
    | none :: _ => rfl
    | some _ :: _ => rfl
  rw [hseen, h, ← hseen]

/-- The documentation of the innermost function, if there is one. -/
def heard? (around : Open) : Option DocComment := around.findSome? (·.bind Construct.heard?)

/-- Whether the words for the class around are replaced in a name that stands here. -/
def replaces (around : Open) (field? : Option String) (s : State) : Bool :=
  s.memberScope?.isSome && !around.importing &&
    !(field? == some "name" && around.right?.any fun construct => construct.mark.isClass)

end Open
/-! ## Trees that meet a discipline -/

variable {D : Discipline}

/-- Whether the spelling of an atom meets the discipline. -/
def admitsAtom (D : Discipline) (kind : String) (field? : Option String) (text : String)
    (around : Open) (s : State) : Bool :=
  if kind ∈ nameKinds ∨ kind = "relative_scope" then D.spelled (around.replaces field? s) text
  else if kind = "variable_name" then
    D.spelled (around.replaces field? s) text &&
      (!around.accessing || D.accessed (TypeName.ofSource text).name)
  else if kind = "primitive_type" ∨ kind = "bottom_type" then D.keyword text
  else if kind = "cast_type" then D.keyword (castTarget text)
  else true

/-- Whether documentation meets the discipline where it is heeded: it is that of the construct
whose node is left, or tells of the parameter that is. -/
def admitsLeft (D : Discipline) (s : State) : Open → Bool
  | some construct :: outer =>
    construct.said.all (D.documented s.memberScope?.isSome) &&
      (!construct.isParameter || (Open.heard? outer).all fun doc =>
        doc.params.all fun e => e.2.types.all (D.documented s.memberScope?.isSome))
  | _ => true

mutual

/-- Whether all spellings in the tree meet the discipline where they are read. -/
def admits (D : Discipline) (surroundings : Surroundings) (around : Open) (s : State) :
    SyntaxTree → Bool
  | .node kind field? range children =>
    let s := noteComment kind range s
    match atom? kind field? range surroundings s with
    | some _ => admitsAtom D kind field? (s.text range) around s
    | none =>
      if children.isEmpty then true
      else
        let (construct?, s) := (enter (.node kind field? range children)).run s
        let (next, s') := (walkAll ⟨some kind, none⟩ (construct? :: around) children).run s
        admitsIn D ⟨some kind, none⟩ (construct? :: around) s children && admitsLeft D s' next

def admitsIn (D : Discipline) (surroundings : Surroundings) (around : Open) (s : State) :
    List SyntaxTree → Bool
  | [] => true
  | tree :: rest =>
    let (next, s') := (walk surroundings around tree).run s
    admits D surroundings around s tree &&
      admitsIn D { surroundings with previousKind? := some tree.kind } next s' rest

end

/-! ## Offers -/

/-- Whether all that is open has taken up such type names only. -/
def Open.Typed (D : Discipline) (around : Open) : Prop :=
  ∀ construct? ∈ around, ∀ construct ∈ construct?, construct.Typed D

/-- What is known of an item where it is offered around. -/
structure Open.Suits (D : Discipline) (around : Open) (replaced : Bool) (item : Item)
    (place : Place) (s : State) : Prop where
  inside : replaced = true → s.memberScope?.isSome = true
  notImport : replaced = true → around.importing = false
  notName : replaced = true → place.isField "name" = true →
    ∀ construct ∈ around.right?, construct.mark.isClass = false
  accessed : place.isChild = true → around.accessing = true →
    ∀ name ∈ item.variableName?, D.accessed name = true
  parameter : item.isParameter = true → D.Hears s.memberScope?.isSome around.heard?

theorem State.memberScope?_of_frame {s s' : State} (h : s'.frame = s.frame) :
    s'.memberScope? = s.memberScope? := by
  rw [s'.memberScope?_eq, h, ← s.memberScope?_eq]

namespace Open.Suits
variable {replaced : Bool} {item : Item} {place : Place} {construct? : Option Construct}
  {construct : Construct} {outer : Open} {s s' : State}

theorem head (h : Open.Suits D (some construct :: outer) replaced item place s) :
    construct.Suits D replaced item place s where
  inside := h.inside
  notImport hreplaced := by
    have himport := h.notImport hreplaced
    rw [importing, List.any_cons, Bool.or_eq_false_iff] at himport
    exact himport.1
  notName hreplaced hfield := h.notName hreplaced hfield construct rfl
  accessed hchild hmember := h.accessed hchild hmember
  parameter hparameter doc hdoc := by
    refine h.parameter hparameter doc ?_
    rw [heard?, List.findSome?_cons, Option.bind_some, hdoc]
    rfl

/-- An item that goes on to the constructs further out suits there as well. -/
theorem deeper (h : Open.Suits D (construct? :: outer) replaced item place s)
    (hscope : replaced = true ∨ item.isParameter = true → s'.memberScope? = s.memberScope?)
    (hheard : item.isParameter = true → construct?.bind Construct.heard? = none) :
    outer.Suits D replaced item .deeper s' where
  inside hreplaced := by
    rw [hscope (.inl hreplaced)]
    exact h.inside hreplaced
  notImport hreplaced := by
    have himport := h.notImport hreplaced
    rw [importing, List.any_cons, Bool.or_eq_false_iff] at himport
    exact himport.2
  notName _ hfield := by cases hfield
  accessed hchild := by cases hchild
  parameter hparameter doc hdoc := by
    rw [hscope (.inr hparameter)]
    refine h.parameter hparameter doc ?_
    rw [heard?, List.findSome?_cons, hheard hparameter]
    exact hdoc

end Open.Suits

/-- A function takes up parameters. -/
theorem taken_of_heard? {construct : Construct} {doc : DocComment}
    (h : construct.heard? = some doc) {item : Item} (hitem : item.isParameter = true)
    (place : Place) (s : State) : ((construct.accept item place).run s).1.2 = true := by
  cases construct with
  | callable c =>
    cases item with
    | parameter p => rfl
    | _ => cases hitem
  | _ => cases h

/-- While an item is offered the class around stays as it is, unless the item is its name. -/
theorem memberScope?_accept {construct : Construct} {item : Item} {place : Place} {s : State}
    (h : place.isField "name" = true → item.isName = true → construct.mark.isClass = false) :
    ((construct.accept item place).run s).2.memberScope? = s.memberScope? := by
  rcases small_frame.accept construct item place s with
    ⟨hframe, -⟩ | ⟨hfield, hname, sort, name?, -, hmark, -⟩
  · exact State.memberScope?_of_frame hframe
  · have hclass := h hfield hname
    rw [hmark] at hclass
    cases hclass

theorem yields_offer (hD : D.Lawful) {replaced : Bool} {item : Item}
    (hitem : item.Typed D replaced) {place : Place} {around : Open} {s : State}
    (haround : around.Typed D) (hsuits : around.Suits D replaced item place s)
    (hs : s.Typed D) : Yields D (offer item place around) s (Open.Typed D) := by
  induction around generalizing place s with
  | nil => exact .pure (List.forall_mem_nil _) hs
  | cons construct? outer ih =>
    obtain ⟨hconstruct, houter⟩ := List.forall_mem_cons.1 haround
    cases construct? with
    | none =>
      unfold offer
      split
      · exact .pure haround hs
      · have hdeeper : Open.Suits D outer replaced item .deeper s :=
          hsuits.deeper (fun _ => rfl) fun _ => rfl
        exact (ih houter hdeeper hs).map fun next hnext =>
          List.forall_mem_cons.2 ⟨hconstruct, hnext⟩
    | some construct =>
      have haccept := Construct.yields_accept hD (hconstruct construct rfl) hitem hsuits.head hs
      have hscope : replaced = true ∨ item.isParameter = true →
          ((construct.accept item place).run s).2.memberScope? = s.memberScope? := by
        intro h
        refine memberScope?_accept fun hfield hname => ?_
        rcases h with h | h
        · exact hsuits.notName h hfield construct rfl
        · cases item <;> contradiction
      have htaken : item.isParameter = true → ((construct.accept item place).run s).1.2 = false →
          construct.heard? = none := by
        intro hparameter hnot
        refine Option.eq_none_iff_forall_ne_some.2 fun doc hdoc => ?_
        rw [taken_of_heard? hdoc hparameter] at hnot
        cases hnot
      unfold offer
      rcases hrun : (construct.accept item place).run s with ⟨⟨next, taken⟩, s'⟩
      rw [hrun] at hscope htaken
      rw [Yields, hrun] at haccept
      rw [Yields, run_bind_eq hrun]
      have hnext : ∀ c ∈ some next, c.Typed D := by
        rintro c ⟨⟩
        exact haccept.1
      simp only
      split
      · exact ⟨List.forall_mem_cons.2 ⟨hnext, houter⟩, haccept.2⟩
      next hgoes =>
        simp only [Bool.or_eq_true, not_or, Bool.not_eq_true] at hgoes
        have hdeeper := hsuits.deeper hscope fun hparameter => htaken hparameter hgoes.1
        exact (ih houter hdeeper haccept.2).map fun outer houter =>
          List.forall_mem_cons.2 ⟨hnext, houter⟩
/-! ## Handing items around -/

theorem Open.heard?_of_map {around next : Open}
    (h : next.map (Option.map Construct.heard?) = around.map (Option.map Construct.heard?)) :
    next.heard? = around.heard? := by
  have hseen (around : Open) :
      around.heard? = (around.map (Option.map Construct.heard?)).findSome? Option.join := by
    rw [heard?, List.findSome?_map]
    congr 1
    funext construct?
    cases construct? with
    | _ => rfl
  rw [hseen, h, ← hseen]

theorem yields_hand_single (hD : D.Lawful) {replaced : Bool} {item : Item}
    (hitem : item.Typed D replaced) {field? : Option String} {around : Open} {s : State}
    (haround : around.Typed D) (hsuits : around.Suits D replaced item (.child field?) s)
    (hs : s.Typed D) : Yields D (hand [item] field? around) s (Open.Typed D) := by
  have hscope : (s.record item).memberScope? = s.memberScope? :=
    State.memberScope?_of_frame (s.frame_record item)
  have hsuits' : around.Suits D replaced item (.child field?) (s.record item) :=
    { hsuits with
      inside := by rw [hscope]; exact hsuits.inside
      parameter := by rw [hscope]; exact hsuits.parameter }
  exact yields_offer hD hitem haround hsuits' (hs.record hitem)

/-- What a node turned into meets the discipline wherever it is taken up. -/
theorem yields_hand (hD : D.Lawful) {parameter : Bool} {items : List Item}
    (hitems : ∀ item ∈ items, item.Passed D parameter) (field? : Option String) {around : Open}
    {s : State} (hheard : parameter = true → D.Hears s.memberScope?.isSome around.heard?)
    (haround : around.Typed D) (hs : s.Typed D) :
    Yields D (hand items field? around) s (Open.Typed D) := by
  induction items generalizing around s with
  | nil => exact .pure haround hs
  | cons item rest ih =>
    obtain ⟨hitem, hrest⟩ := List.forall_mem_cons.1 hitems
    have hsuits : around.Suits D false item (.child field?) s := by
      refine ⟨nofun, nofun, nofun, fun _ _ => ?_, fun h => hheard (hitem.isParameter h)⟩
      rw [hitem.variableName?]
      exact nofun
    have hfirst := yields_hand_single hD hitem.typed haround hsuits hs
    have hnot : ((Place.child field?).isField "name" && item.isName) = false := by
      rw [hitem.isName, Bool.and_false]
    have hframe := (frame_offer_of_not_name hnot around (s.record item)).2
    have hscope : ((hand [item] field? around).run s).2.memberScope? = s.memberScope? :=
      State.memberScope?_of_frame (hframe.trans (s.frame_record item))
    have hsame : Open.heard? ((hand [item] field? around).run s).1 = around.heard? :=
      Open.heard?_of_map (lasting_heard?.map_offer item (.child field?) around (s.record item))
    rw [← hscope, ← hsame] at hheard
    exact ih hrest hheard hfirst.1 hfirst.2
/-! ## Readings -/

/-- What an atom is read as. -/
structure Item.Read (D : Discipline) (replaced accessing : Bool) (item : Item) : Prop where
  typed : item.Typed D replaced
  isParameter : item.isParameter = false
  accessed : accessing = true → ∀ name ∈ item.variableName?, D.accessed name = true

namespace Item.Read
variable {replaced accessing : Bool} {item : Item}

theorem of_typed (h : item.Typed D replaced) (hparameter : item.isParameter = false)
    (hvariable : item.variableName? = none) : item.Read D replaced accessing where
  typed := h
  isParameter := hparameter
  accessed _ name hname := by rw [hvariable] at hname; cases hname

theorem suits {field? : Option String} {around : Open} {s : State}
    (h : item.Read D (around.replaces field? s) around.accessing) :
    around.Suits D (around.replaces field? s) item (.child field?) s where
  inside hreplaced := by
    simp only [Open.replaces, Bool.and_eq_true] at hreplaced
    exact hreplaced.1.1
  notImport hreplaced := by
    simp only [Open.replaces, Bool.and_eq_true, Bool.not_eq_true'] at hreplaced
    exact hreplaced.1.2
  notName hreplaced hfield construct hconstruct := by
    have hname : (field? == some "name") = true := hfield
    simp only [Open.replaces, Option.mem_def.1 hconstruct, hname, Option.any_some, Bool.true_and,
      Bool.and_eq_true, Bool.not_eq_true'] at hreplaced
    exact hreplaced.2
  accessed _ := h.accessed
  parameter hparameter := by rw [h.isParameter] at hparameter; cases hparameter

end Item.Read

section
variable {kind : String} {field? : Option String} {range : Range} {surroundings : Surroundings}
  {around : Open} {s : State} {replaced accessing : Bool}

theorem read_nameItem (hD : D.Lawful) (hspelled : D.spelled replaced (s.text range) = true)
    (hclass : D.type (s.resolveClass (s.text range))) (hs : s.Typed D) :
    (nameItem surroundings field? range s).Read D replaced accessing := by
  unfold nameItem
  simp only
  split
  · have hpassed := passed_classReference hD s hclass range
    exact .of_typed hpassed.typed rfl hpassed.variableName?
  · split
    · refine .of_typed ⟨⟨fun _ => ?_, nofun⟩, hs.constantTypes _⟩ rfl rfl
      exact TypeUnion.all_single (hD.absolute _)
    · exact .of_typed hspelled rfl rfl

theorem read_variableReference {name : String}
    (haccessed : accessing = true → D.accessed (TypeName.ofSource name).name = true)
    (hs : s.Typed D) : (s.variableReference name range).Read D replaced accessing where
  typed := by
    refine ⟨⟨fun h => ?_, nofun⟩, hs.innermost.getD name⟩
    simp at h
  isParameter := rfl
  accessed haccessing used hused := by
    have hname : (s.variableReference name range).variableName? =
        some (TypeName.ofSource name).name := by
      simp only [State.variableReference, Item.variableName?, if_true]
      rfl
    rw [hname] at hused
    exact Option.some.inj hused ▸ haccessed haccessing

theorem read_atom (hD : D.Lawful) {item : Item}
    (hatom : atom? kind field? range surroundings s = some item)
    (hadmits : admitsAtom D kind field? (s.text range) around s = true) (hs : s.Typed D) :
    item.Read D (around.replaces field? s) around.accessing := by
  have hclass (h : D.spelled (around.replaces field? s) (s.text range) = true) :
      D.type (s.resolveClass (s.text range)) := by
    refine hD.resolveClass s _ _ hs (fun hreplaced => ?_) h
    simp only [Open.replaces, Bool.and_eq_true] at hreplaced
    exact hreplaced.1.1
  unfold admitsAtom at hadmits
  unfold atom? at hatom
  simp only at hatom
  by_cases hname : kind ∈ nameKinds
  · rw [if_pos (.inl hname)] at hadmits
    rw [if_pos hname] at hatom
    cases hatom
    exact read_nameItem hD hadmits (hclass hadmits) hs
  by_cases hvariable : kind = "variable_name"
  · subst hvariable
    have hscope : ¬("variable_name" ∈ nameKinds ∨ "variable_name" = "relative_scope") := by decide
    rw [if_neg hscope, if_pos rfl, Bool.and_eq_true] at hadmits
    rw [if_neg hname, if_pos rfl] at hatom
    split at hatom
    · cases hatom
      exact .of_typed hadmits.1 rfl rfl
    · cases hatom
      refine read_variableReference (fun haccessing => ?_) hs
      simpa [haccessing] using hadmits.2
  by_cases hprimitive : kind = "primitive_type" ∨ kind = "bottom_type"
  · have hscope : ¬(kind ∈ nameKinds ∨ kind = "relative_scope") := by
      rcases hprimitive with rfl | rfl <;> decide
    rw [if_neg hscope, if_neg hvariable, if_pos hprimitive] at hadmits
    rw [if_neg hname, if_neg hvariable, if_pos hprimitive] at hatom
    cases hatom
    exact .of_typed (TypeUnion.all_single (hD.keyword _ hadmits)) rfl rfl
  by_cases hcast : kind = "cast_type"
  · subst hcast
    have hscope : ¬("cast_type" ∈ nameKinds ∨ "cast_type" = "relative_scope") := by decide
    rw [if_neg hscope, if_neg hvariable, if_neg hprimitive, if_pos rfl] at hadmits
    rw [if_neg hname, if_neg hvariable, if_neg hprimitive, if_pos rfl] at hatom
    cases hatom
    exact .of_typed (TypeUnion.all_single (hD.keyword _ hadmits)) rfl rfl
  rw [if_neg hname, if_neg hvariable, if_neg hprimitive, if_neg hcast] at hatom
  by_cases hscope : kind = "relative_scope"
  · rw [if_pos (.inr hscope)] at hadmits
    rw [if_pos hscope] at hatom
    cases hatom
    exact .of_typed (TypeUnion.all_single (hclass hadmits)) rfl rfl
  rw [if_neg hscope] at hatom
  split at hatom
  · obtain ⟨word, -, rfl⟩ := Option.map_eq_some_iff.1 hatom
    exact .of_typed trivial rfl rfl
  · split at hatom
    · cases hatom
      exact .of_typed trivial rfl rfl
    · obtain ⟨type, htype, rfl⟩ := Option.map_eq_some_iff.1 hatom
      have htable : ∀ p ∈ literalTypes, p.2 ∈ inferredTypes := by decide
      refine .of_typed (TypeUnion.all_single (hD.inferred type ?_)) rfl rfl
      exact htable _ (mem_of_lookup htype)

end

theorem all_scopeFor (hD : D.Lawful) (sort : CallableSort) (range : Range) {s : State}
    (hs : s.Typed D) : (Callable.scopeFor sort range s).All D.type := by
  have hempty := VariableScope.all_empty (P := D.type) (s.locate range)
  unfold Callable.scopeFor
  cases sort with
  | function => exact hempty
  | method =>
    simp only
    split
    next owner howner =>
      exact hempty.bind _ (TypeUnion.all_single (hD.ofOwner owner (hs.owner howner)))
    · exact hempty
  | closure =>
    simp only
    split
    next types htypes => exact hempty.bind _ (hs.innermost.get? types htypes)
    · exact hempty
  | arrow => exact hs.innermost

/-- Literals have types that are inferred, and members are taken by references to members. -/
def Role.isFitting : Role → Bool
  | .literal type => type ∈ inferredTypes
  | .member kind => kind.isMember
  | _ => true

theorem yields_start (hD : D.Lawful) {kind : String} {role : Role}
    (hrole : Role.ofKind? kind = some role) (tree : SyntaxTree) {s : State} (hs : s.Typed D) :
    Yields D (role.start tree) s (Construct.Typed D) := by
  have htable : ∀ p ∈ Role.table, p.2.isFitting = true := by decide
  have hfitting := htable _ (Role.mem_table hrole)
  cases role with
  | namespaceStatement => exact ⟨trivial, hs.noImports⟩
  | classBody sort? => exact ⟨trivial, hs.openClass _⟩
  | callable sort =>
    refine ⟨⟨List.forall_mem_nil _, TypeUnion.all_empty, TypeUnion.all_empty⟩, ?_⟩
    exact hs.openScope (all_scopeFor hD sort tree.range hs)
  | member kind =>
    have hscope : ∀ u ∈ (none : Option TypeUnion), u.All D.used := nofun
    have hname : ∀ item ∈ (none : Option Item), item.Passed D false := fun _ h => by cases h
    exact ⟨⟨hfitting, hscope, hname⟩, hs⟩
  | literal type => exact ⟨hD.inferred type (of_decide_eq_true hfitting), hs⟩
  | useName => exact ⟨nofun, hs⟩
  | parameter promoted variadic => exact ⟨TypeUnion.all_empty, hs⟩
  | typeHint nullable => exact ⟨⟨TypeUnion.all_empty, List.forall_mem_nil _⟩, hs⟩
  | properties => exact ⟨⟨TypeUnion.all_empty, List.forall_mem_nil _⟩, hs⟩
  | element => exact ⟨nofun, hs⟩
  | call => exact ⟨nofun, hs⟩
  | creation => exact ⟨⟨nofun, TypeUnion.all_empty⟩, hs⟩
  | argument => exact ⟨nofun, hs⟩
  | assignment => exact ⟨TypeUnion.all_empty, hs⟩
  | returned => exact ⟨TypeUnion.all_empty, hs⟩
  | group => exact ⟨TypeUnion.all_empty, hs⟩
  | binary => exact ⟨⟨TypeUnion.all_empty, TypeUnion.all_empty⟩, hs⟩
  | unary => exact ⟨TypeUnion.all_empty, hs⟩
  | cast => exact ⟨TypeUnion.all_empty, hs⟩
  | conditional => exact ⟨⟨TypeUnion.all_empty, nofun, TypeUnion.all_empty⟩, hs⟩
  | catchClause => exact ⟨TypeUnion.all_empty, hs⟩
  | useStatement => exact ⟨List.forall_mem_nil _, hs⟩
  | nameList role => exact ⟨List.forall_mem_nil _, hs⟩
  | constants => exact ⟨List.forall_mem_nil _, hs⟩
  | arguments => exact ⟨List.forall_mem_nil _, hs⟩
  | _ => exact ⟨trivial, hs⟩

theorem Construct.typed_withDoc {construct next : Construct} {doc : DocComment}
    (h : construct.withDoc doc = some next) (hconstruct : construct.Typed D) : next.Typed D := by
  cases construct <;> simp only [withDoc, Option.some.injEq, reduceCtorEq] at h <;>
    subst h <;> exact hconstruct

/-- Documentation that comes and goes changes no type names. -/
theorem State.Typed.withDoc {s : State} (h : s.Typed D) (doc? : Option DocComment) :
    { s with doc? := doc? }.Typed D := { h with }

theorem State.Typed.noteComment {s : State} (h : s.Typed D) (kind : String) (range : Range) :
    (Extract.noteComment kind range s).Typed D := by
  unfold Extract.noteComment
  split
  · exact h.withDoc _
  · exact h

theorem yields_takeDoc (kind : String) {construct? : Option Construct} {s : State}
    (hconstruct : ∀ construct ∈ construct?, construct.Typed D) (hs : s.Typed D) :
    Yields D (takeDoc kind construct?) s fun next? => ∀ next ∈ next?, next.Typed D := by
  constructor
  · rcases takeDoc_cases kind construct? s with heq | ⟨construct, next, doc, rfl, hnext, heq⟩
    · rw [heq]
      exact hconstruct
    · rw [heq]
      rintro next ⟨⟩
      exact Construct.typed_withDoc hnext (hconstruct construct rfl)
  · unfold takeDoc
    simp only [StateT.run_bind, StateT.run_get, pure_bind]
    split
    · exact hs.withDoc none
    · exact hs
    · split
      · exact hs.withDoc none
      · exact hs

theorem yields_enter (hD : D.Lawful) (tree : SyntaxTree) {s : State} (hs : s.Typed D) :
    Yields D (enter tree) s fun construct? => ∀ construct ∈ construct?, construct.Typed D := by
  unfold enter
  cases hrole : Role.ofKind? tree.kind with
  | none => exact yields_takeDoc tree.kind (fun construct h => by cases h) hs
  | some role =>
    obtain ⟨hconstruct, hs'⟩ := yields_start hD hrole tree hs
    rcases hrun : (role.start tree).run s with ⟨construct, s'⟩
    rw [hrun] at hconstruct hs'
    have hopened : ∀ c ∈ some construct, c.Typed D := by
      rintro c ⟨⟩
      exact hconstruct
    simp only
    rw [Yields, run_bind_eq hrun]
    exact yields_takeDoc tree.kind hopened hs'

theorem yields_leave (hD : D.Lawful) {construct? : Option Construct} {outer : Open} {s : State}
    (hadmits : admitsLeft D s (construct? :: outer) = true)
    (hopen : Open.Typed D (construct? :: outer)) (field? : Option String) (range : Range)
    (hs : s.Typed D) : Yields D (leave construct? field? range outer) s (Open.Typed D) := by
  obtain ⟨hconstruct, houter⟩ := List.forall_mem_cons.1 hopen
  cases construct? with
  | none => exact .pure houter hs
  | some construct =>
    rw [admitsLeft, Bool.and_eq_true, List.all_eq_true] at hadmits
    obtain ⟨hsaid, hheard⟩ := hadmits
    have hfinish := Construct.yields_finish hD (hconstruct construct rfl) hsaid range hs
    have hscope : construct.isParameter = true →
        ((construct.finish range).run s).2.memberScope? = s.memberScope? := by
      intro hparameter
      refine State.memberScope?_of_frame (small_frame.finish ?_ range s)
      cases construct <;> first | rfl | cases hparameter
    rcases hrun : (construct.finish range).run s with ⟨items, s'⟩
    rw [hrun] at hscope
    rw [Yields, hrun] at hfinish
    unfold leave
    simp only
    rw [Yields, run_bind_eq hrun]
    refine yields_hand hD hfinish.1 field? (fun hparameter => ?_) houter hfinish.2
    intro doc hdoc e he t ht
    rw [hparameter, Option.mem_def.1 hdoc] at hheard
    simp only [Bool.not_true, Bool.false_or, Option.all_some, List.all_eq_true] at hheard
    rw [hscope hparameter]
    exact hheard e he t ht

mutual

/-- A reading keeps a discipline that the tree meets. -/
theorem yields_walk (hD : D.Lawful) : (tree : SyntaxTree) → (surroundings : Surroundings) →
    {around : Open} → {s : State} → admits D surroundings around s tree = true →
    around.Typed D → s.Typed D → Yields D (walk surroundings around tree) s (Open.Typed D)
  | .node kind field? range children, surroundings, around, s, hadmits, haround, hs => by
    unfold admits at hadmits
    have hs' := hs.noteComment kind range
    cases hatom : atom? kind field? range surroundings (noteComment kind range s) with
    | some item =>
      simp only [hatom] at hadmits
      have hread := read_atom hD hatom hadmits hs'
      obtain ⟨doc?, hrun⟩ := run_walk_atom around children hatom
      rw [Yields, hrun]
      exact yields_hand_single hD hread.typed haround { hread.suits with } (hs'.withDoc doc?)
    | none =>
      simp only [hatom] at hadmits
      cases children with
      | nil =>
        rw [Yields, run_walk_leaf hatom]
        split
        · exact ⟨haround, hs'⟩
        · generalize (noteComment kind range s).text range = text
          have htoken : (Item.token text).Typed D false := trivial
          have hsuits : around.Suits D false (.token text) (.child field?)
              (noteComment kind range s) := ⟨nofun, nofun, nofun, fun _ _ => nofun, nofun⟩
          exact yields_hand_single hD htoken haround hsuits hs'
      | cons tree rest =>
        rcases henter : (enter (.node kind field? range (tree :: rest))).run
          (noteComment kind range s) with ⟨construct?, s₁⟩
        rcases hwalk : (walkAll ⟨some kind, none⟩ (construct? :: around) (tree :: rest)).run s₁
          with ⟨next, s₂⟩
        simp only [List.isEmpty_cons, Bool.false_eq_true, if_false, henter, hwalk,
          Bool.and_eq_true] at hadmits
        obtain ⟨hconstruct, hs₁⟩ := yields_enter hD (.node kind field? range (tree :: rest)) hs'
        rw [henter] at hconstruct hs₁
        have hinside := yields_walkAll hD (tree :: rest) ⟨some kind, none⟩ hadmits.1
          (List.forall_mem_cons.2 ⟨hconstruct, haround⟩) hs₁
        rw [Yields, hwalk] at hinside
        obtain ⟨next?, outer, rfl⟩ : ∃ (next? : Option Construct) (outer : Open),
            next = next? :: outer := by
          have hhear := run_walkAll_eq_hear (tree :: rest) ⟨some kind, none⟩
            (construct? :: around) s₁
          rw [hwalk, hear_cons] at hhear
          exact ⟨_, _, hhear⟩
        rw [Yields, run_walk_node hatom rfl henter hwalk]
        exact yields_leave hD hadmits.2 hinside.1 field? range hinside.2

theorem yields_walkAll (hD : D.Lawful) : (trees : List SyntaxTree) →
    (surroundings : Surroundings) → {around : Open} → {s : State} →
    admitsIn D surroundings around s trees = true → around.Typed D → s.Typed D →
    Yields D (walkAll surroundings around trees) s (Open.Typed D)
  | [], surroundings, around, s, hadmits, haround, hs => by
    unfold walkAll
    exact .pure haround hs
  | tree :: rest, surroundings, around, s, hadmits, haround, hs => by
    unfold admitsIn at hadmits
    rcases hwalk : (walk surroundings around tree).run s with ⟨next, s'⟩
    simp only [hwalk, Bool.and_eq_true] at hadmits
    have hfirst := yields_walk hD tree surroundings hadmits.1 haround hs
    rw [Yields, hwalk] at hfirst
    unfold walkAll
    rw [Yields, run_bind_eq hwalk]
    exact yields_walkAll hD rest _ hadmits.2 hfirst.1 hfirst.2

end

end PhpIndex.Extract
