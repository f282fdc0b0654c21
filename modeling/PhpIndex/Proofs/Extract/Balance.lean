import PhpIndex.Proofs.Extract.Mentions
import PhpIndex.Proofs.Extract.Steps

/-!
# Functions and classes in balance

Entering a function opens a scope and entering a class opens a context; leaving the node closes
what it opened. Between the two the open classes are those whose bodies are being read, each with
its name as far as it was read. So a reading comes back to the functions and classes that it found
open, and the functions that it finishes are the ones that it entered, in the order in which it
left them.
Main statement: `course_walk`.
-/
namespace PhpIndex

namespace SyntaxTree

/-- The kinds of nodes that are classes, with or without a name. -/
def classKinds : List String :=
  ["class_declaration", "enum_declaration", "interface_declaration", "trait_declaration",
   "anonymous_class"]

def isClassLike (tree : SyntaxTree) : Bool := tree.kind ∈ classKinds

/-- Whether the node is the name of what it stands in. -/
def isName (tree : SyntaxTree) : Bool := tree.field? == some "name"

end SyntaxTree

namespace Extract

/-! ## Marks -/

namespace Mark

/-- The context in which the body of a class is read: its name, empty before that was read, and
whether it never has one. -/
def context? : Mark → Option (String × Bool)
  | .class sort? name? => some (name?.getD "", sort?.isNone)
  | _ => none

end Mark

/-- The mark of what a node opened, if anything. -/
def markOf (construct? : Option Construct) : Mark := construct?.elim .other Construct.mark

namespace Open

def marks (around : Open) : List Mark := around.map markOf

theorem marks_cons (construct? : Option Construct) (outer : Open) :
    marks (construct? :: outer) = markOf construct? :: outer.marks := rfl

/-- The contexts of the classes whose bodies are open. -/
def contexts (around : Open) : List (String × Bool) := around.marks.filterMap Mark.context?

/-- Whether the innermost construct is a class that got a name, and all others are seen as
before. -/
def Renamed (around next : Open) : Prop := ∃ sort name? name outer,
  around.marks = .class (some sort) name? :: outer ∧
    next.marks = .class (some sort) (some name) :: outer

theorem Renamed.trans {a b c : Open} (hab : a.Renamed b) (hbc : b.Renamed c) : a.Renamed c := by
  obtain ⟨sort, name?, name, outer, ha, hb⟩ := hab
  obtain ⟨sort', name?', name', outer', hb', hc⟩ := hbc
  rw [hb] at hb'
  obtain ⟨⟨⟩, ⟨⟩⟩ := List.cons.inj hb'
  exact ⟨sort, name?, name', outer, ha, hc⟩

/-- Whether the constructs are seen as before, but for the name of the innermost class. -/
def Becomes (named : Bool) (around next : Open) : Prop :=
  next.marks = around.marks ∨ named = true ∧ around.Renamed next

namespace Becomes
variable {named named' : Bool} {a b c : Open}

theorem refl (a : Open) : a.Becomes named a := .inl rfl

theorem mono (h : a.Becomes named b) (hle : named = true → named' = true) : a.Becomes named' b :=
  h.imp_right fun ⟨hnamed, hren⟩ => ⟨hle hnamed, hren⟩

theorem trans (hab : a.Becomes named b) (hbc : b.Becomes named c) : a.Becomes named c := by
  rcases hab with hab | ⟨hnamed, hab⟩
  · rcases hbc with hbc | ⟨hnamed, sort, name?, name, outer, hb, hc⟩
    · exact .inl (hbc.trans hab)
    · exact .inr ⟨hnamed, sort, name?, name, outer, hab ▸ hb, hc⟩
  · rcases hbc with hbc | ⟨-, hbc⟩
    · obtain ⟨sort, name?, name, outer, ha, hb⟩ := hab
      exact .inr ⟨hnamed, sort, name?, name, outer, ha, hbc.trans hb⟩
    · exact .inr ⟨hnamed, hab.trans hbc⟩

theorem eq_nil {next : Open} (h : Becomes named [] next) : next = [] := by
  rcases h with h | ⟨-, _, _, _, _, h, -⟩
  · exact List.map_eq_nil_iff.1 h
  · cases h

/-- Only the innermost construct may be seen in another way. -/
theorem exists_cons {construct? : Option Construct} {around next : Open}
    (h : Becomes named (construct? :: around) next) :
    ∃ (next? : Option Construct) (outer : Open), next = next? :: outer ∧
      outer.marks = around.marks ∧ (markOf next? = markOf construct? ∨
        named = true ∧ ∃ sort name? name, markOf construct? = .class (some sort) name? ∧
          markOf next? = .class (some sort) (some name)) := by
  cases next with
  | nil =>
    rcases h with h | ⟨-, _, _, _, _, -, h⟩
    · cases h
    · cases h
  | cons next? outer =>
    rw [Becomes, Renamed, marks_cons, marks_cons] at h
    rcases h with h | ⟨hnamed, sort, name?, name, rest, ha, hb⟩
    · obtain ⟨hnext, houter⟩ := List.cons.inj h
      exact ⟨next?, outer, rfl, houter, .inl hnext⟩
    · obtain ⟨ha, haround⟩ := List.cons.inj ha
      obtain ⟨hb, houter⟩ := List.cons.inj hb
      exact ⟨next?, outer, rfl, houter.trans haround.symm,
        .inr ⟨hnamed, sort, name?, name, ha, hb⟩⟩

end Becomes
end Open

/-! ## Frames -/

/-- What the small steps of a reading leave as it was. -/
structure Frame where
  uri : String
  source : String
  scopes : List Location
  finished : List Location
  contexts : List (String × Bool)

namespace State

def frame (s : State) : Frame where
  uri := s.uri
  source := s.source
  scopes := s.scopes.map VariableScope.location
  finished := s.finished.map VariableScope.location
  contexts := s.classes.map fun c => (c.name, c.anonymous)

theorem frame_bind (s : State) (name : String) (types : TypeUnion) :
    (s.bind name types).frame = s.frame := by
  unfold bind
  split
  · rfl
  next scope outer hscopes =>
    simp only [frame, hscopes]
    rfl

theorem frame_parent (s : State) (parent? : Option String) :
    (s.modifyClass fun context => { context with parent? }).frame = s.frame := by
  unfold modifyClass
  split
  · rfl
  next c outer hclasses =>
    simp only [frame, hclasses]
    rfl

theorem frame_name (s : State) (name : String) {old : String} {anonymous : Bool}
    {outer : List (String × Bool)} (h : s.frame.contexts = (old, anonymous) :: outer) :
    (s.modifyClass fun context => { context with name }).frame =
      { s.frame with contexts := (name, anonymous) :: outer } := by
  unfold modifyClass
  cases hclasses : s.classes with
  | nil =>
    simp only [frame, hclasses] at h
    cases h
  | cons c rest =>
    simp only [frame, hclasses, List.map_cons, List.cons.injEq, Prod.mk.injEq] at h
    obtain ⟨⟨-, rfl⟩, rfl⟩ := h
    simp only [frame]
    rfl

theorem frame_record (s : State) (item : Item) : (s.record item).frame = s.frame := by
  unfold record
  split
  · rfl
  · split <;> rfl
  · rfl

/-- The class for which members are recorded is known from the contexts. -/
theorem memberScope?_eq (s : State) : s.memberScope? =
    match s.frame.contexts with
    | [] => none
    | (name, anonymous) :: _ => if anonymous || name.isEmpty then none else some name := by
  unfold memberScope? frame
  cases s.classes with
  | nil => rfl
  | cons c outer => rfl

end State

theorem small_frame : Small fun s s' => s'.frame = s.frame where
  refl _ := rfl
  trans hab hbc := hbc.trans hab
  imports _ _ := rfl
  doc _ _ := rfl
  bind s name types := s.frame_bind name types
  parent s parent? := s.frame_parent parent?

namespace Frame

/-- The frame behind the entry into a node. -/
def entered (f : Frame) (range : Range) : Mark → Frame
  | .function => { f with scopes := .of f.uri range :: f.scopes }
  | .class sort? name? => { f with contexts := (name?.getD "", sort?.isNone) :: f.contexts }
  | .other => f

/-- The frame behind a node that was left. -/
def left (f : Frame) : Mark → Frame
  | .function =>
    match f.scopes with
    | [] => f
    | scope :: outer => { f with scopes := outer, finished := f.finished ++ [scope] }
  | .class _ _ => { f with contexts := f.contexts.tail }
  | .other => f

end Frame

/-! ## Entering a node -/

def Role.mark : Role → Mark
  | .callable _ => .function
  | .classBody sort? => .class sort? none
  | _ => .other

end Extract

namespace SyntaxTree

/-- The mark of what the node opens. -/
def mark (tree : SyntaxTree) : Extract.Mark :=
  (Extract.Role.ofKind? tree.kind).elim .other Extract.Role.mark

end SyntaxTree

namespace Extract

theorem mark_eq_function_iff (tree : SyntaxTree) :
    tree.mark = .function ↔ tree.isFunction = true := by
  have htable : ∀ p ∈ Role.table, p.2.mark = .function ↔ p.1 ∈ SyntaxTree.functionKinds := by decide
  have hkinds : ∀ k ∈ SyntaxTree.functionKinds, (Role.ofKind? k).isSome := by decide
  rw [SyntaxTree.isFunction, decide_eq_true_eq, SyntaxTree.mark]
  cases hrole : Role.ofKind? tree.kind with
  | none =>
    have hother : Mark.other ≠ .function := by decide
    refine ⟨fun h => absurd h hother, fun hkind => ?_⟩
    have hsome := hkinds _ hkind
    rw [hrole] at hsome
    cases hsome
  | some role => exact htable _ (Role.mem_table hrole)

theorem isClass_mark (tree : SyntaxTree) : tree.mark.isClass = tree.isClassLike := by
  have htable : ∀ p ∈ Role.table, p.2.mark.isClass = decide (p.1 ∈ SyntaxTree.classKinds) := by
    decide
  have hkinds : ∀ k ∈ SyntaxTree.classKinds, (Role.ofKind? k).isSome := by decide
  rw [SyntaxTree.isClassLike, SyntaxTree.mark]
  cases hrole : Role.ofKind? tree.kind with
  | none =>
    refine (decide_eq_false fun hkind => ?_).symm
    have hsome := hkinds _ hkind
    rw [hrole] at hsome
    cases hsome
  | some role => exact htable _ (Role.mem_table hrole)

/-- A class has no name when it is entered, and no sort just if it is anonymous. -/
theorem mark_of_isClassLike {tree : SyntaxTree} (h : tree.isClassLike = true) :
    ∃ sort?, tree.mark = .class sort? none ∧ (sort? = none ↔ tree.kind = "anonymous_class") := by
  have htable : ∀ p ∈ Role.table, p.2.mark.isClass →
      ∃ sort? ∈ [none, some .class, some .interface, some .trait],
        p.2.mark = .class sort? none ∧ (sort? = none ↔ p.1 = "anonymous_class") := by decide
  rw [← isClass_mark] at h
  unfold SyntaxTree.mark at h ⊢
  cases hrole : Role.ofKind? tree.kind with
  | none =>
    rw [hrole] at h
    cases h
  | some role =>
    rw [hrole] at h
    obtain ⟨sort?, -, hmark, hkind⟩ := htable _ (Role.mem_table hrole) h
    exact ⟨sort?, hmark, hkind⟩

theorem Construct.mark_withDoc {construct next : Construct} {doc : DocComment}
    (h : construct.withDoc doc = some next) : next.mark = construct.mark := by
  cases construct <;> simp only [withDoc, Option.some.injEq, reduceCtorEq] at h <;>
    subst h <;> rfl

theorem frame_start (role : Role) (tree : SyntaxTree) (s : State) :
    ((role.start tree).run s).1.mark = role.mark ∧
      ((role.start tree).run s).2.frame = s.frame.entered tree.range role.mark := by
  cases role with
  | callable sort =>
    refine ⟨rfl, ?_⟩
    have hlocation : (Callable.scopeFor sort tree.range s).location = .of s.uri tree.range :=
      Callable.location_scopeFor sort tree.range s
    change (s.openScope (Callable.scopeFor sort tree.range s)).frame = _
    simp only [State.openScope, State.frame, List.map_cons, hlocation]
    rfl
  | _ => exact ⟨rfl, rfl⟩

/-- What is entered is seen as its kind says, and opens what its kind says. -/
theorem frame_enter (tree : SyntaxTree) (s : State) :
    markOf ((enter tree).run s).1 = tree.mark ∧
      ((enter tree).run s).2.frame = s.frame.entered tree.range tree.mark := by
  constructor
  · unfold SyntaxTree.mark
    rcases enter_cases tree s with ⟨hrole, hnone⟩ | ⟨role, next, hrole, hnext, heq⟩
    · rw [hrole, hnone]
      rfl
    · have hmark := (frame_start role tree s).1
      rw [hrole, hnext]
      rcases heq with rfl | ⟨doc, hdoc⟩
      · exact hmark
      · exact (Construct.mark_withDoc hdoc).trans hmark
  · unfold enter SyntaxTree.mark
    cases Role.ofKind? tree.kind with
    | none => exact small_frame.quiet.takeDoc _ _ s
    | some role =>
      have hframe := (frame_start role tree s).2
      rcases hrun : (role.start tree).run s with ⟨construct, s'⟩
      rw [hrun] at hframe
      simp only
      rw [run_bind_eq hrun]
      exact (small_frame.quiet.takeDoc _ _ s').trans hframe

/-! ## Leaving a node -/

theorem frame_finish (construct : Construct) (range : Range) (s : State) :
    ((construct.finish range).run s).2.frame = s.frame.left construct.mark := by
  cases hmark : construct.mark with
  | other => exact small_frame.finish hmark range s
  | function =>
    cases construct with
    | callable c =>
      rw [state_finish_callable]
      unfold State.closeScope Frame.left
      cases hscopes : s.scopes with
      | nil => simp only [State.frame, hscopes, List.map_nil]
      | cons scope outer => simp [State.frame, hscopes]
    | _ => cases hmark
  | «class» sort? name? =>
    cases construct with
    | classBody c =>
      rw [state_finish_classBody]
      simp only [State.closeClass, State.frame, Frame.left, List.map_tail]
    | _ => cases hmark

/-! ## Handing items around -/

/-- Behind the innermost construct an item goes on as one from deeper down. -/
theorem frame_offer_cons {item : Item} {outer : Open}
    (hdeeper : ∀ s, ((offer item .deeper outer).run s).1.marks = outer.marks ∧
      ((offer item .deeper outer).run s).2.frame = s.frame)
    (construct : Construct) (place : Place) (s : State) :
    ((offer item place (some construct :: outer)).run s).1.marks =
        ((construct.accept item place).run s).1.1.mark :: outer.marks ∧
      ((offer item place (some construct :: outer)).run s).2.frame =
        ((construct.accept item place).run s).2.frame := by
  unfold offer
  rcases hrun : (construct.accept item place).run s with ⟨⟨next, taken⟩, s'⟩
  rw [run_bind_eq hrun]
  simp only
  split
  · exact ⟨rfl, rfl⟩
  · obtain ⟨hmarks, hframe⟩ := hdeeper s'
    exact ⟨congrArg (next.mark :: ·) hmarks, hframe⟩

/-- Whatever is no name of a class leaves everything as it was. -/
theorem frame_offer_of_not_name {item : Item} {place : Place}
    (h : (place.isField "name" && item.isName) = false) (around : Open) (s : State) :
    ((offer item place around).run s).1.marks = around.marks ∧
      ((offer item place around).run s).2.frame = s.frame := by
  induction around generalizing place s with
  | nil => exact ⟨rfl, rfl⟩
  | cons construct? outer ih =>
    have hdeeper := @ih .deeper rfl
    cases construct? with
    | none =>
      unfold offer
      split
      · exact ⟨rfl, rfl⟩
      · obtain ⟨hmarks, hframe⟩ := hdeeper s
        exact ⟨congrArg (Mark.other :: ·) hmarks, hframe⟩
    | some construct =>
      obtain ⟨hmarks, hframe⟩ := frame_offer_cons hdeeper construct place s
      rcases small_frame.accept construct item place s with
        ⟨hframe', hmark⟩ | ⟨hfield, hname, -⟩
      · rw [hmarks, hframe, hmark]
        exact ⟨rfl, hframe'⟩
      · rw [hfield, hname] at h
        cases h

/-- The name of a class is taken up by the class, where it stands right in its node. -/
theorem frame_offer (item : Item) (place : Place) {around : Open} {s : State}
    (hs : s.frame.contexts = around.contexts) :
    around.Becomes (place.isField "name" && item.isName) ((offer item place around).run s).1 ∧
      ((offer item place around).run s).2.frame =
        { s.frame with contexts := ((offer item place around).run s).1.contexts } := by
  have hkept {next : Open} {s' : State} (hmarks : next.marks = around.marks)
      (hframe : s'.frame = s.frame) :
      around.Becomes (place.isField "name" && item.isName) next ∧
        s'.frame = { s.frame with contexts := next.contexts } := by
    refine ⟨.inl hmarks, ?_⟩
    rw [Open.contexts, hmarks, ← Open.contexts, ← hs]
    exact hframe
  cases around with
  | nil => exact hkept rfl rfl
  | cons construct? outer =>
    have hdeeper := @frame_offer_of_not_name item .deeper rfl outer
    cases construct? with
    | none =>
      unfold offer
      split
      · exact hkept rfl rfl
      · obtain ⟨hmarks, hframe⟩ := hdeeper s
        exact hkept (congrArg (Mark.other :: ·) hmarks) hframe
    | some construct =>
      obtain ⟨hmarks, hframe⟩ := frame_offer_cons hdeeper construct place s
      rcases small_frame.accept construct item place s with
        ⟨hframe', hmark⟩ | ⟨hfield, hname, sort, name?, name, hmark, hmark', hstep⟩
      · exact hkept (hmarks.trans (congrArg (· :: Open.marks outer) hmark)) (hframe.trans hframe')
      · have haround : Open.marks (some construct :: outer) =
            .class (some sort) name? :: Open.marks outer := congrArg (· :: Open.marks outer) hmark
        have hcontexts : s.frame.contexts = (name?.getD "", false) :: Open.contexts outer := by
          rw [hs, Open.contexts, haround]
          rfl
        rw [hmark'] at hmarks
        have hnext : ((offer item place (some construct :: outer)).run s).1.contexts =
            (name, false) :: Open.contexts outer := by
          rw [Open.contexts, hmarks]
          rfl
        refine ⟨.inr ⟨by rw [hfield, hname]; rfl, sort, name?, name, _, haround, hmarks⟩, ?_⟩
        rw [hframe, hstep, s.frame_name name hcontexts, hnext]

/-! ## Courses -/

/-- What a reading of some nodes does to what is open: it ends where it began, but for the name of
the class around, and has finished these functions. -/
structure Course (named : Bool) (functions : List SyntaxTree) (around : Open) (s : State)
    (next : Open) (s' : State) : Prop where
  becomes : around.Becomes named next
  frame : s'.frame = { s.frame with
    finished := s.frame.finished ++ functions.map fun n => .of s.uri n.range
    contexts := next.contexts }

namespace Course
variable {named named' : Bool} {functions functions' : List SyntaxTree} {a b c : Open}
  {s s' s'' : State}

theorem refl {around : Open} (hs : s.frame.contexts = around.contexts) :
    Course named [] around s around s where
  becomes := .refl around
  frame := by
    rw [List.map_nil, List.append_nil, ← hs]

theorem contexts (h : Course named functions a s b s') : s'.frame.contexts = b.contexts := by
  rw [h.frame]

theorem uri (h : Course named functions a s b s') : s'.uri = s.uri :=
  congrArg Frame.uri h.frame

theorem trans (hab : Course named functions a s b s') (hbc : Course named functions' b s' c s'') :
    Course named (functions ++ functions') a s c s'' where
  becomes := hab.becomes.trans hbc.becomes
  frame := by
    rw [hbc.frame, hab.uri, hab.frame, List.map_append, ← List.append_assoc]

theorem mono (h : Course named functions a s b s') (hle : named = true → named' = true) :
    Course named' functions a s b s' := ⟨h.becomes.mono hle, h.frame⟩

end Course

/-- Handing items around names a class if one of them is a name at that place. -/
theorem course_hand (items : List Item) (field? : Option String) {around : Open} {s : State}
    (hs : s.frame.contexts = around.contexts) :
    Course (field? == some "name" && items.any Item.isName) [] around s
      ((hand items field? around).run s).1 ((hand items field? around).run s).2 := by
  unfold hand
  induction items generalizing around s with
  | nil => exact .refl hs
  | cons item rest ih =>
    rw [List.foldlM_cons]
    have hrecord := s.frame_record item
    have hs' : (s.record item).frame.contexts = around.contexts := by rw [hrecord, hs]
    obtain ⟨hbecomes, hframe⟩ := frame_offer item (.child field?) hs'
    rcases hrun : (offer item (.child field?) around).run (s.record item) with ⟨next, s'⟩
    rw [hrun] at hbecomes hframe
    rw [hrecord] at hframe
    have hfirst : Course (field? == some "name" && item.isName) [] around s next s' :=
      ⟨hbecomes, by simpa using hframe⟩
    have hstep : (do
        modify fun s : State => s.record item
        offer item (.child field?) around : StateM State Open).run s =
        (next, s') := hrun
    rw [run_bind_eq hstep]
    refine (hfirst.mono ?_).trans ((ih hfirst.contexts).mono ?_)
    · simp +contextual
    · simp +contextual

end Extract

/-! ## Functions that are entered -/

namespace SyntaxTree

def atomKinds : List String :=
  Extract.nameKinds ++ Extract.literalTypes.map Prod.fst ++
    ["variable_name", "primitive_type", "bottom_type", "cast_type", "relative_scope",
     "reference_modifier"]

/-- Whether the meaning of the node is known from its text alone, so that nothing in it is read. -/
def isAtom (source : String) (tree : SyntaxTree) : Bool :=
  tree.kind ∈ atomKinds || tree.kind ∈ Extract.modifierKinds &&
    (ModifierWord.parse? ((Text.slice? source tree.range.start.toNat
      tree.range.stop.toNat).getD "")).isSome

mutual

/-- The functions that are read when the tree is read, in the order in which they are left: those
that have something in them and do not lie in an atom. -/
def enteredFunctions (source : String) : SyntaxTree → List SyntaxTree
  | .node kind field? range children =>
    if isAtom source (.node kind field? range children) || children.isEmpty then []
    else enteredFunctionsIn source children ++
      if isFunction (.node kind field? range children) then [.node kind field? range children]
      else []

def enteredFunctionsIn (source : String) : List SyntaxTree → List SyntaxTree
  | [] => []
  | tree :: rest => enteredFunctions source tree ++ enteredFunctionsIn source rest

end

end SyntaxTree

namespace Extract

theorem isSome_atom? (kind : String) (field? : Option String) (range : Range)
    (children : List SyntaxTree) (around : Surroundings) (s : State) :
    (atom? kind field? range around s).isSome =
      (SyntaxTree.node kind field? range children).isAtom s.source := by
  have hmodifiers : ∀ k ∈ modifierKinds, k ∉ SyntaxTree.atomKinds := by decide
  have hkind : kind ∈ SyntaxTree.atomKinds ↔ kind ∈ nameKinds ∨ (literalTypes.lookup kind).isSome ∨
      kind = "variable_name" ∨ kind = "primitive_type" ∨ kind = "bottom_type" ∨
      kind = "cast_type" ∨ kind = "relative_scope" ∨ kind = "reference_modifier" := by
    simp [SyntaxTree.atomKinds, List.lookup_isSome_iff]
  rw [Bool.eq_iff_iff, SyntaxTree.isAtom, Bool.or_eq_true, Bool.and_eq_true, decide_eq_true_eq,
    decide_eq_true_eq]
  change _ ↔ kind ∈ SyntaxTree.atomKinds ∨ kind ∈ modifierKinds ∧
    (ModifierWord.parse? (s.text range)).isSome
  rw [hkind]
  unfold atom?
  by_cases hmodifier : kind ∈ modifierKinds
  · have hnot := hmodifiers kind hmodifier
    rw [hkind] at hnot
    simp only [not_or] at hnot
    simp [hmodifier, hnot]
  · split
    next h => simp [h]
    next hname =>
      split
      next h => split <;> simp [h]
      next hvariable =>
        split
        next h => rcases h with h | h <;> simp [h]
        next hprimitive =>
          simp only [not_or] at hprimitive
          split
          next h => simp [h]
          next hcast =>
            split
            next h => simp [h]
            next hscope =>
              split
              next h => simp [h]
              next hreference =>
                simp [hmodifier, hname, hvariable, hprimitive, hcast, hscope, hreference]

/-! ## Readings -/

theorem Course.of_frame {named : Bool} {functions : List SyntaxTree} {around next : Open}
    {s s' s'' : State} (h : Course named functions around s' next s'')
    (hframe : s'.frame = s.frame) :
    Course named functions around s next s'' where
  becomes := h.becomes
  frame := by
    have huri : s'.uri = s.uri := congrArg Frame.uri hframe
    rw [h.frame, hframe, huri]

/-- Leaving a node closes what it had opened and hands on what became of it. -/
theorem frame_leave (construct? : Option Construct) (field? : Option String) (range : Range)
    {around : Open} {s : State} (hs : s.frame.contexts = Open.contexts (construct? :: around)) :
    around.Becomes
        (field? == some "name" && (itemsLeft range s (construct? :: around)).any Item.isName)
        ((leave construct? field? range around).run s).1 ∧
      ((leave construct? field? range around).run s).2.frame =
        { s.frame.left (markOf construct?) with
          contexts := ((leave construct? field? range around).run s).1.contexts } := by
  cases construct? with
  | none =>
    have hcontexts : around.contexts = s.frame.contexts := hs.symm
    refine ⟨.refl around, ?_⟩
    change s.frame = { s.frame with contexts := around.contexts }
    rw [hcontexts]
  | some construct =>
    have hframe := frame_finish construct range s
    rcases hrun : (construct.finish range).run s with ⟨items, s'⟩
    rw [hrun] at hframe
    simp only at hframe
    have hcontexts : s'.frame.contexts = around.contexts := by
      rw [hframe]
      rw [Open.contexts, Open.marks_cons, markOf, Option.elim_some] at hs
      cases hmark : construct.mark with
      | other =>
        rw [hmark] at hs
        exact hs
      | function =>
        rw [hmark] at hs
        unfold Frame.left
        simp only
        split <;> exact hs
      | «class» sort? name? =>
        rw [hmark] at hs
        simp only [Frame.left, hs]
        rfl
    have hcourse := course_hand items field? hcontexts
    unfold leave
    simp only
    rw [run_bind_eq hrun]
    rw [itemsLeft, hrun]
    refine ⟨hcourse.becomes, ?_⟩
    have hhand := hcourse.frame
    rw [List.map_nil, List.append_nil, hframe] at hhand
    exact hhand

theorem contexts_enter (tree : SyntaxTree) {around : Open} {s : State}
    (hs : s.frame.contexts = around.contexts) :
    ((enter tree).run s).2.frame.contexts = Open.contexts (((enter tree).run s).1 :: around) := by
  obtain ⟨hmark, hframe⟩ := frame_enter tree s
  rw [hframe, Open.contexts, Open.marks_cons, hmark]
  cases tree.mark with
  | «class» sort? name? => exact congrArg (_ :: ·) hs
  | _ => exact hs

/-- Between entering a node and leaving it the constructs in it are read. -/
theorem course_node {tree : SyntaxTree} {around : Open} {s : State}
    (hs : s.frame.contexts = around.contexts) {construct? : Option Construct} {s₁ : State}
    (henter : (enter tree).run s = (construct?, s₁)) {named : Bool} {functions : List SyntaxTree}
    {next : Open} {s₂ : State}
    (hinside : s₁.source = s.source → s₁.frame.contexts = Open.contexts (construct? :: around) →
      Course named functions (construct? :: around) s₁ next s₂) :
    ∃ (next? : Option Construct) (outer : Open), next = next? :: outer ∧
      Course tree.isName (functions ++ if tree.isFunction then [tree] else []) around s
        ((leave next? tree.field? tree.range outer).run s₂).1
        ((leave next? tree.field? tree.range outer).run s₂).2 := by
  obtain ⟨hmark, hframe⟩ := frame_enter tree s
  have hs₁ := contexts_enter tree hs
  rw [henter] at hmark hframe hs₁
  simp only at hmark hframe hs₁
  have hsource : s₁.source = s.source := by
    refine (congrArg Frame.source hframe).trans ?_
    cases tree.mark <;> rfl
  have huri : s₁.uri = s.uri := by
    refine (congrArg Frame.uri hframe).trans ?_
    cases tree.mark <;> rfl
  have hcourse := hinside hsource hs₁
  obtain ⟨next?, outer, rfl, houter, hnext⟩ := hcourse.becomes.exists_cons
  have hleft (f : Frame) : f.left (markOf next?) = f.left tree.mark := by
    rw [← hmark]
    rcases hnext with heq | ⟨-, sort, name?, name, ha, hb⟩
    · rw [heq]
    · rw [ha, hb]
      rfl
  obtain ⟨hbecomes, hleave⟩ := frame_leave next? tree.field? tree.range hcourse.contexts
  refine ⟨next?, outer, rfl, ?_, ?_⟩
  · exact .trans (.inl houter) (hbecomes.mono fun h => (Bool.and_eq_true_iff.1 h).1)
  · rw [hleave, hleft, hcourse.frame, huri, hframe]
    have hfunction := mark_eq_function_iff tree
    cases htree : tree.mark with
    | function =>
      rw [if_pos (hfunction.1 htree)]
      simp [Frame.entered, Frame.left]
      rfl
    | «class» sort? name? =>
      rw [if_neg fun h => by rw [hfunction.2 h] at htree; cases htree]
      simp [Frame.entered, Frame.left]
    | other =>
      rw [if_neg fun h => by rw [hfunction.2 h] at htree; cases htree]
      simp [Frame.entered, Frame.left]

mutual

/-- A reading comes back to the functions and classes that were open, and finishes the functions
that it entered. -/
theorem course_walk : (tree : SyntaxTree) → (surroundings : Surroundings) → {around : Open} →
    {s : State} → s.frame.contexts = around.contexts →
    Course tree.isName (tree.enteredFunctions s.source) around s
      ((walk surroundings around tree).run s).1 ((walk surroundings around tree).run s).2
  | .node kind field? range children, surroundings, around, s, hs => by
    have hnoted : (noteComment kind range s).frame = s.frame :=
      small_frame.quiet.noteComment kind range s
    have hsource : (noteComment kind range s).source = s.source := congrArg Frame.source hnoted
    have hs' : (noteComment kind range s).frame.contexts = around.contexts := by rw [hnoted, hs]
    have hatom? := isSome_atom? kind field? range children surroundings (noteComment kind range s)
    rw [hsource] at hatom?
    unfold SyntaxTree.enteredFunctions
    cases hatom : atom? kind field? range surroundings (noteComment kind range s) with
    | some item =>
      rw [hatom] at hatom?
      obtain ⟨doc?, hrun⟩ := run_walk_atom around children hatom
      rw [hrun, ← hatom?]
      refine Course.of_frame ?_ hnoted
      exact ((course_hand [item] field? (s := { noteComment kind range s with doc? }) hs').mono
        fun h => (Bool.and_eq_true_iff.1 h).1).of_frame rfl
    | none =>
      rw [hatom] at hatom?
      cases children with
      | nil =>
        rw [run_walk_leaf hatom]
        refine Course.of_frame ?_ hnoted
        simp only [List.isEmpty_nil, Bool.or_true, if_true]
        split
        · exact .refl hs'
        · exact (course_hand _ field? hs').mono fun h => (Bool.and_eq_true_iff.1 h).1
      | cons tree rest =>
        rcases henter : (enter (.node kind field? range (tree :: rest))).run
          (noteComment kind range s) with ⟨construct?, s₁⟩
        rcases hwalk : (walkAll ⟨some kind, none⟩ (construct? :: around) (tree :: rest)).run s₁
          with ⟨next, s₂⟩
        obtain ⟨next?, outer, rfl, hcourse⟩ := course_node hs' henter fun hsource₁ hs₁ => by
          have hall := course_walkAll (tree :: rest) ⟨some kind, none⟩ hs₁
          rwa [hwalk, hsource₁, hsource] at hall
        rw [run_walk_node hatom rfl henter hwalk, ← hatom?]
        exact hcourse.of_frame hnoted

theorem course_walkAll : (trees : List SyntaxTree) → (surroundings : Surroundings) →
    {around : Open} → {s : State} → s.frame.contexts = around.contexts →
    Course (trees.any SyntaxTree.isName) (SyntaxTree.enteredFunctionsIn s.source trees) around s
      ((walkAll surroundings around trees).run s).1 ((walkAll surroundings around trees).run s).2
  | [], surroundings, around, s, hs => by
    unfold walkAll SyntaxTree.enteredFunctionsIn
    exact .refl hs
  | tree :: rest, surroundings, around, s, hs => by
    have hfirst := course_walk tree surroundings hs
    rcases hwalk : (walk surroundings around tree).run s with ⟨next, s'⟩
    rw [hwalk] at hfirst
    have hsource : s'.source = s.source := congrArg Frame.source hfirst.frame
    have hrest := course_walkAll rest { surroundings with previousKind? := some tree.kind }
      hfirst.contexts
    rw [hsource] at hrest
    unfold walkAll SyntaxTree.enteredFunctionsIn
    rw [run_bind_eq hwalk]
    refine (hfirst.mono fun h => ?_).trans (hrest.mono fun h => ?_)
    · exact List.any_cons.trans (by rw [h]; rfl)
    · exact List.any_cons.trans (by rw [h, Bool.or_true])

end

end Extract
end PhpIndex
