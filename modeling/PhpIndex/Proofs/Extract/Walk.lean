import PhpIndex.Document.Basic
import PhpIndex.Proofs.Extract.Constructs

/-!
# Readings of whole trees

A reading of a tree finds sound things only. The scopes of functions are finished in the order in
which the functions end: of two functions one lies in the other and is finished first, or the one
that is finished first ends before the other starts. The induction is on the tree: a reading of
a node closes scopes in the range of the node only, and in between leaves the open ones alone.
Main statement: `Document.sound_ofTree`.
-/
namespace PhpIndex

namespace Range

theorem encloses_iff {r other : Range} :
    r.encloses other = true ↔ r.start ≤ other.start ∧ other.stop ≤ r.stop := by
  rw [encloses, Bool.and_eq_true, decide_eq_true_eq, decide_eq_true_eq]

theorem encloses_refl (r : Range) : r.encloses r = true :=
  encloses_iff.2 ⟨UInt32.le_refl _, UInt32.le_refl _⟩

theorem encloses_trans {a b c : Range} (hab : a.encloses b = true) (hbc : b.encloses c = true) :
    a.encloses c = true := by
  rw [encloses_iff] at *
  exact ⟨UInt32.le_trans hab.1 hbc.1, UInt32.le_trans hbc.2 hab.2⟩

end Range

/-- What lies in a range within the text is within it. -/
theorem Range.Within.mono {size : Nat} {outer r : Range} (h : outer.Within size)
    (hin : outer.encloses r = true) (hle : r.start ≤ r.stop) : r.Within size := by
  have hstop : r.stop.toNat ≤ outer.stop.toNat := (Range.encloses_iff.1 hin).2
  have hstart : r.start.toNat ≤ r.stop.toNat := hle
  have hsize := h.2
  exact ⟨by omega, by omega⟩

namespace SyntaxTree

mutual

/-- Whether no node ends before it starts, and the children of each lie in it one behind the
other. -/
def nested : SyntaxTree → Bool
  | .node _ _ range children => range.start ≤ range.stop && nestedIn range children

/-- Whether nested trees lie in a range one behind the other. -/
def nestedIn (range : Range) : List SyntaxTree → Bool
  | [] => true
  | tree :: rest =>
    range.encloses tree.range && tree.nested && nestedIn ⟨tree.range.stop, range.stop⟩ rest

end

theorem start_le_stop : {tree : SyntaxTree} → tree.nested = true →
    tree.range.start ≤ tree.range.stop
  | .node .., h => by
    rw [nested, Bool.and_eq_true] at h
    exact of_decide_eq_true h.1

/-- The first of the trees in a range lies in it, and the others lie in what is left behind it. -/
theorem nestedIn_cons {range : Range} {tree : SyntaxTree} {rest : List SyntaxTree}
    (h : nestedIn range (tree :: rest) = true) :
    range.encloses tree.range = true ∧ tree.nested = true ∧
      nestedIn ⟨tree.range.stop, range.stop⟩ rest = true ∧
      range.encloses ⟨tree.range.stop, range.stop⟩ = true := by
  rw [nestedIn, Bool.and_eq_true, Bool.and_eq_true] at h
  obtain ⟨⟨hin, htree⟩, hrest⟩ := h
  have hstart := (Range.encloses_iff.1 hin).1
  exact ⟨hin, htree, hrest, Range.encloses_iff.2
    ⟨UInt32.le_trans hstart (start_le_stop htree), UInt32.le_refl _⟩⟩

end SyntaxTree

/-- Whether the first scope may be finished before the second: it lies in front of it or in it. -/
def VariableScope.ClosesBefore (a b : VariableScope) : Prop :=
  ∃ ra rb, a.range? = some ra ∧ b.range? = some rb ∧
    (ra.stop ≤ rb.start ∨ rb.encloses ra = true)

namespace Extract
variable {uri : String} {size : Nat}

/-! ## What a reading adds -/

/-- The scopes of functions in a range, in the order in which the functions end. -/
structure Finishes (uri : String) (range : Range) (closed : List VariableScope) : Prop where
  ordered : closed.Pairwise VariableScope.ClosesBefore
  located : ∀ x ∈ closed, ∃ r : Range, x.location = .of uri r ∧ r.start ≤ r.stop ∧
    range.encloses r = true

/-- Whether a reading has left the open scopes where they are and has finished scopes in the
range only. -/
structure State.Grows (uri : String) (range : Range) (s s' : State) : Prop where
  scopes : s'.scopes.map VariableScope.location = s.scopes.map VariableScope.location
  finished : ∃ closed, s'.finished = s.finished ++ closed ∧ Finishes uri range closed

namespace Finishes

theorem nil (uri : String) (range : Range) : Finishes uri range [] :=
  ⟨.nil, List.forall_mem_nil _⟩

theorem mono {range outer : Range} {closed : List VariableScope} (h : Finishes uri range closed)
    (houter : outer.encloses range = true) : Finishes uri outer closed := by
  refine ⟨h.ordered, fun x hx => ?_⟩
  obtain ⟨r, hr, hle, hin⟩ := h.located x hx
  exact ⟨r, hr, hle, Range.encloses_trans houter hin⟩

/-- Scopes in one range, followed by scopes in a range behind it. -/
theorem append {first second : Range} {front back : List VariableScope}
    (hfront : Finishes uri first front) (hback : Finishes uri second back)
    (hle : first.stop ≤ second.start) {outer : Range} (hfirst : outer.encloses first = true)
    (hsecond : outer.encloses second = true) : Finishes uri outer (front ++ back) := by
  constructor
  case ordered =>
    refine List.pairwise_append.2 ⟨hfront.ordered, hback.ordered, fun x hx y hy => ?_⟩
    obtain ⟨rx, hrx, -, hxin⟩ := hfront.located x hx
    obtain ⟨ry, hry, -, hyin⟩ := hback.located y hy
    refine ⟨rx, ry, ?_, ?_, .inl ?_⟩
    · rw [VariableScope.range?, hrx]
      rfl
    · rw [VariableScope.range?, hry]
      rfl
    · have hx := (Range.encloses_iff.1 hxin).2
      have hy := (Range.encloses_iff.1 hyin).1
      exact UInt32.le_trans hx (UInt32.le_trans hle hy)
  case located =>
    exact List.forall_mem_append.2 ⟨(hfront.mono hfirst).located, (hback.mono hsecond).located⟩

/-- The scope of a function is finished behind those of the functions in it. -/
theorem concat {range : Range} {closed : List VariableScope} (h : Finishes uri range closed)
    (hrange : range.start ≤ range.stop) {scope : VariableScope}
    (hscope : scope.location = .of uri range) : Finishes uri range (closed ++ [scope]) := by
  constructor
  case ordered =>
    refine List.pairwise_append.2 ⟨h.ordered, List.pairwise_singleton _ _, fun x hx y hy => ?_⟩
    obtain rfl := List.mem_singleton.1 hy
    obtain ⟨r, hr, -, hin⟩ := h.located x hx
    refine ⟨r, range, ?_, ?_, .inr hin⟩
    · rw [VariableScope.range?, hr]
      rfl
    · rw [VariableScope.range?, hscope]
      rfl
  case located =>
    refine List.forall_mem_append.2 ⟨h.located, List.forall_mem_singleton.2 ?_⟩
    exact ⟨range, hscope, hrange, range.encloses_refl⟩

end Finishes

namespace State

theorem Keeps.grows {s s' : State} (h : s.Keeps s') (range : Range) : s.Grows uri range s' :=
  ⟨h.scopes, [], by rw [h.finished, List.append_nil], .nil uri range⟩

namespace Grows
variable {s s' s'' : State} {range : Range}

theorem of_keeps_left (h : s.Keeps s') (h' : s'.Grows uri range s'') : s.Grows uri range s'' := by
  obtain ⟨closed, hclosed, hfinishes⟩ := h'.finished
  exact ⟨h'.scopes.trans h.scopes, closed, by rw [hclosed, h.finished], hfinishes⟩

theorem append {first second outer : Range} (h : s.Grows uri first s')
    (h' : s'.Grows uri second s'') (hle : first.stop ≤ second.start)
    (hfirst : outer.encloses first = true) (hsecond : outer.encloses second = true) :
    s.Grows uri outer s'' := by
  obtain ⟨front, hfront, hfinishes⟩ := h.finished
  obtain ⟨back, hback, hfinishes'⟩ := h'.finished
  refine ⟨h'.scopes.trans h.scopes, front ++ back, ?_,
    hfinishes.append hfinishes' hle hfirst hsecond⟩
  rw [hback, hfront, List.append_assoc]

end Grows
end State

/-! ## Functions -/

namespace Callable

theorem sound_start (sort : CallableSort) : Callable.Sound { sort } :=
  ⟨List.forall_mem_nil _, TypeUnion.tidy_empty, TypeUnion.tidy_empty⟩

end Callable

/-- What entering a node does: at a function, and only there, it opens a scope of the node's
range. -/
structure Enters (uri : String) (size : Nat) (range : Range) (s : State)
    (construct? : Option Construct) (s' : State) : Prop where
  construct : ∀ c ∈ construct?, c.Sound uri size
  sound : s'.Sound uri size
  finished : s'.finished = s.finished
  scopes : s'.scopes.map VariableScope.location =
    if construct?.any Construct.isCallable then
      .of uri range :: s.scopes.map VariableScope.location
    else s.scopes.map VariableScope.location

theorem Enters.of_ensures {action : StateM State (Option Construct)}
    (h : Ensures uri size action fun construct? => (∀ c ∈ construct?, c.Sound uri size) ∧
      construct?.any Construct.isCallable = false) {s : State} (hs : s.Sound uri size)
    (range : Range) : Enters uri size range s (action.run s).1 (action.run s).2 := by
  obtain ⟨⟨hconstruct, hsort⟩, hsound, hkeeps⟩ := h s hs
  refine ⟨hconstruct, hsound, hkeeps.finished, ?_⟩
  rw [hsort]
  exact hkeeps.scopes

theorem enters_enter (tree : SyntaxTree) {s : State} (hs : s.Sound uri size) :
    Enters uri size tree.range s ((enter tree).run s).1 ((enter tree).run s).2 := by
  have hnone : ∀ c ∈ (none : Option Construct), c.Sound uri size := fun _ h => by cases h
  unfold enter
  cases hrole : Role.ofKind? tree.kind with
  | none => exact .of_ensures (ensures_takeDoc tree.kind hnone) hs tree.range
  | some role =>
    have hsome {c : Construct} (hc : c.Sound uri size) :
        ∀ c' ∈ some c, Construct.Sound uri size c' := by
      rintro c' ⟨⟩
      exact hc
    by_cases hcallable : ∃ sort, role = .callable sort
    · obtain ⟨sort, rfl⟩ := hcallable
      have hsound := hs.openScope (Callable.tidy_scopeFor sort tree.range hs)
      have hstart : Construct.Sound uri size (.callable { sort }) := Callable.sound_start sort
      obtain ⟨⟨hconstruct, hsort⟩, hnext, hkeeps⟩ :=
        ensures_takeDoc tree.kind (hsome hstart) _ hsound
      refine ⟨hconstruct, hnext, hkeeps.finished, hkeeps.scopes.trans ?_⟩
      refine Eq.trans ?_ (if_pos hsort).symm
      exact congrArg (· :: _)
        ((Callable.location_scopeFor sort tree.range s).trans (hs.locate tree.range))
    · refine .of_ensures ?_ hs tree.range
      have hstart : Ensures uri size (role.start tree) fun c =>
          c.Sound uri size ∧ c.isCallable = false :=
        Role.ensures_start (fun sort hsort => hcallable ⟨sort, hsort⟩)
          (Role.ne_variable_of_ofKind? hrole) tree
      refine hstart.bind fun c ⟨hc, hsort⟩ => ?_
      exact (ensures_takeDoc tree.kind (hsome hc)).mono fun _ h => ⟨h.1, h.2.trans hsort⟩

/-- What leaving a node does: a function finishes the scope that it has opened. -/
structure Leaves (uri : String) (size : Nat) (range : Range) (outer : List Location)
    (around : Open) (s : State) (next : Open) (s' : State) : Prop where
  around : around.Follows uri size next
  sound : s'.Sound uri size
  scopes : s'.scopes.map VariableScope.location = outer
  finished : ∃ back, s'.finished = s.finished ++ back ∧
    ∀ closed, Finishes uri range closed → Finishes uri range (closed ++ back)

/-- The scope that is closed is the one that was opened last. -/
theorem State.exists_closed (s : State) {inner : Location} {outer : List Location}
    (h : s.scopes.map VariableScope.location = inner :: outer) :
    ∃ scope, scope.location = inner ∧ s.closeScope.scopes.map VariableScope.location = outer ∧
      s.closeScope.finished = s.finished ++ [scope] := by
  unfold State.closeScope
  cases hopen : s.scopes with
  | nil =>
    rw [hopen] at h
    cases h
  | cons scope rest =>
    rw [hopen, List.map_cons] at h
    obtain ⟨hscope, hrest⟩ := List.cons.inj h
    exact ⟨scope, hscope, hrest, rfl⟩

/-- A function is left by closing its scope and handing its items around. -/
theorem run_leave_callable {c : Callable} (h : c.Sound) {range : Range} (hrange : range.Within size)
    {s : State} (hs : s.Sound uri size) (field? : Option String) (around : Open) :
    (leave (some (.callable c)) field? range around).run s =
        (hand ((c.finish range).run s).1 field? around).run s.closeScope ∧
      ∀ item ∈ ((c.finish range).run s).1, item.Sound uri size := by
  obtain ⟨items, hrun, hitems⟩ := Callable.run_finish h hrange hs
  rw [hrun]
  refine ⟨?_, hitems⟩
  change ((c.finish range >>= fun items => hand items field? around).run s) = _
  rw [StateT.run_bind, hrun]
  rfl

theorem leaves_leave {construct? : Option Construct}
    (hconstruct : ∀ c ∈ construct?, c.Sound uri size) {around : Open}
    (haround : around.Sound uri size) (field? : Option String) {range : Range}
    (hrange : range.Within size) (hle : range.start ≤ range.stop) {s : State}
    (hs : s.Sound uri size) {outer : List Location}
    (hscopes : s.scopes.map VariableScope.location =
      if construct?.any Construct.isCallable then .of uri range :: outer else outer) :
    Leaves uri size range outer around s ((leave construct? field? range around).run s).1
      ((leave construct? field? range around).run s).2 := by
  have hnil (closed : List VariableScope) (h : Finishes uri range closed) :
      Finishes uri range (closed ++ []) := by
    rwa [List.append_nil]
  cases construct? with
  | none => exact ⟨⟨haround, rfl⟩, hs, hscopes, [], (List.append_nil _).symm, hnil⟩
  | some construct =>
    have hself := hconstruct construct rfl
    cases hsort : construct.isCallable with
    | false =>
      have hleave := (Construct.ensures_finish hself hsort hrange).bind fun items hitems =>
        ensures_hand hitems field? haround
      obtain ⟨hnext, hsound, hkeeps⟩ := hleave s hs
      have houter : s.scopes.map VariableScope.location = outer := by
        rw [hscopes, Option.any_some, hsort]
        rfl
      exact ⟨hnext, hsound, hkeeps.scopes.trans houter, [],
        hkeeps.finished.trans (List.append_nil _).symm, hnil⟩
    | true =>
      cases construct with
      | callable c =>
        obtain ⟨hleave, hitems⟩ := run_leave_callable hself hrange hs field? around
        obtain ⟨hnext, hsound, hkeeps⟩ := ensures_hand hitems field? haround _ hs.closeScope
        obtain ⟨scope, hscope, houter, hfinished⟩ := s.exists_closed hscopes
        rw [hleave]
        exact ⟨hnext, hsound, hkeeps.scopes.trans houter, [scope],
          hkeeps.finished.trans hfinished, fun closed h => h.concat hle hscope⟩
      | _ => cases hsort

/-! ## Nodes -/

theorem sound_constantReference {s : State} (hs : s.Sound uri size) (name : String) {range : Range}
    (hrange : range.Within size) : (s.constantReference name range).Sound uri size :=
  ⟨⟨⟨range, hs.locate range, hrange⟩, nofun,
    .inl (TypeUnion.tidy_single (TypeName.steady_ofAbsolute _)), nofun, nofun⟩, hs.constantTypes _⟩

theorem sound_nameItem (around : Surroundings) (field? : Option String) {range : Range}
    (hrange : range.Within size) {s : State} (hs : s.Sound uri size) :
    (nameItem around field? range s).Sound uri size := by
  unfold nameItem
  simp only
  split
  · exact hs.classReference (s.steady_resolveClass _) hrange
  · split
    · exact sound_constantReference hs _ hrange
    · exact hrange

theorem sound_atom (kind : String) (field? : Option String) {range : Range}
    (hrange : range.Within size) (around : Surroundings) {s : State} (hs : s.Sound uri size) :
    ∀ item ∈ atom? kind field? range around s, item.Sound uri size := by
  have htype {t : TypeName} (ht : t.Steady) :
      ∀ item ∈ some (Item.type (.single t) range), item.Sound uri size := by
    rintro item ⟨⟩
    exact ⟨TypeUnion.tidy_single ht, hrange⟩
  unfold atom?
  simp only
  split
  · rintro item ⟨⟩
    exact sound_nameItem around field? hrange hs
  · split
    · split
      · rintro item ⟨⟩
        exact hrange
      · rintro item ⟨⟩
        exact hs.variableReference _ hrange
    · split
      · exact htype (TypeName.steady_ofSource _)
      · split
        · exact htype (TypeName.steady_ofSource _)
        · split
          · exact htype (s.steady_resolveClass _)
          · split
            · intro item hitem
              obtain ⟨word, -, rfl⟩ := Option.map_eq_some_iff.1 hitem
              trivial
            · split
              · rintro item ⟨⟩
                trivial
              · intro item hitem
                obtain ⟨type, -, rfl⟩ := Option.map_eq_some_iff.1 hitem
                exact ⟨TypeUnion.tidy_single (TypeName.steady_ofSource _), hrange⟩

theorem ensures_noteComment (kind : String) (range : Range) :
    Ensures uri size (modify fun s => noteComment kind range s) fun _ => True := by
  refine Ensures.modify fun s hs => ?_
  unfold noteComment
  split
  · generalize some (DocComment.parse _) = doc?
    exact ⟨{ hs with }, rfl, rfl⟩
  · exact ⟨hs, .refl s⟩

/-- Whether a reading in sound surroundings finds sound things and finishes scopes in the range
only. -/
def Reads (uri : String) (size : Nat) (range : Range) (around : Open)
    (action : StateM State Open) : Prop :=
  ∀ s : State, s.Sound uri size → around.Follows uri size (action.run s).1 ∧
    (action.run s).2.Sound uri size ∧ s.Grows uri range (action.run s).2

theorem Ensures.reads {action : StateM State Open} {around : Open}
    (h : Ensures uri size action (around.Follows uri size)) (range : Range) :
    Reads uri size range around action := by
  intro s hs
  obtain ⟨haround, hsound, hkeeps⟩ := h s hs
  exact ⟨haround, hsound, hkeeps.grows range⟩

theorem Ensures.bind_reads {action : StateM State α} {post : α → Prop} {range : Range}
    {around : Open} {next : α → StateM State Open} (h : Ensures uri size action post)
    (hnext : ∀ a, post a → Reads uri size range around (next a)) :
    Reads uri size range around (action >>= next) := by
  intro s hs
  obtain ⟨hpost, hsound, hkeeps⟩ := h s hs
  obtain ⟨haround, hsound', hgrows⟩ := hnext _ hpost _ hsound
  exact ⟨haround, hsound', hgrows.of_keeps_left hkeeps⟩

/-- A node that is no atom: its construct is open while its children are read. -/
theorem reads_node (kind : String) (field? : Option String) {range : Range}
    (children : List SyntaxTree) (hle : range.start ≤ range.stop) (hrange : range.Within size)
    {around : Open} (haround : around.Sound uri size)
    (hwalk : ∀ {around : Open}, around.Sound uri size →
      Reads uri size range around (walkAll ⟨some kind, none⟩ around children)) :
    Reads uri size range around (do
      let construct? ← enter (.node kind field? range children)
      match ← walkAll ⟨some kind, none⟩ (construct? :: around) children with
      | [] => return []
      | construct? :: around => leave construct? field? range around) := by
  intro s hs
  have henters := enters_enter (.node kind field? range children) hs
  rcases hentered : (enter (.node kind field? range children)).run s with ⟨construct?, s₁⟩
  rw [hentered] at henters
  rw [run_bind_eq hentered]
  have hinner : Open.Sound uri size (construct? :: around) :=
    List.forall_mem_cons.2 ⟨henters.construct, haround⟩
  have hwalked := hwalk hinner s₁ henters.sound
  rcases hwalkedTo : (walkAll ⟨some kind, none⟩ (construct? :: around) children).run s₁ with
    ⟨next, s₂⟩
  rw [hwalkedTo] at hwalked
  rw [run_bind_eq hwalkedTo]
  obtain ⟨hfollows, hsound, hgrows⟩ := hwalked
  cases next with
  | nil => cases hfollows.sorts
  | cons next? next =>
    obtain ⟨hnext?, hnext⟩ := List.forall_mem_cons.1 hfollows.sound
    obtain ⟨hsort, hsorts⟩ := List.cons.inj hfollows.sorts
    have hscopes := hgrows.scopes.trans henters.scopes
    simp only at hsort hscopes
    rw [← hsort] at hscopes
    have hleaves := leaves_leave hnext? hnext field? hrange hle hsound hscopes
    obtain ⟨closed, hclosed, hfinishes⟩ := hgrows.finished
    obtain ⟨back, hback, happend⟩ := hleaves.finished
    refine ⟨⟨hleaves.around.sound, hleaves.around.sorts.trans hsorts⟩, hleaves.sound,
      hleaves.scopes, closed ++ back, ?_, happend closed hfinishes⟩
    rw [hback, hclosed, henters.finished, List.append_assoc]

mutual

theorem reads_walk : (tree : SyntaxTree) → tree.nested = true → tree.range.Within size →
    (surroundings : Surroundings) → {around : Open} → around.Sound uri size →
    Reads uri size tree.range around (walk surroundings around tree)
  | .node kind field? range children, hnested, hrange, surroundings, around, haround => by
    rw [SyntaxTree.nested, Bool.and_eq_true, decide_eq_true_eq] at hnested
    obtain ⟨hle, hchildren⟩ := hnested
    unfold walk
    refine (ensures_noteComment kind range).bind_reads fun _ _ => ?_
    refine Ensures.get.bind_reads fun s₀ hs₀ => ?_
    have hatom := sound_atom kind field? hrange surroundings hs₀
    split
    next item hitem =>
      have hitems := List.forall_mem_singleton.2 (hatom item hitem)
      have hhand : Ensures uri size (hand [item] field? around) (around.Follows uri size) :=
        ensures_hand hitems field? haround
      split
      · exact ((ensures_doc fun _ => none).bind fun _ _ => hhand).reads range
      · exact hhand.reads range
    · split
      · split
        · exact (Ensures.pure ⟨haround, rfl⟩).reads range
        · refine Ensures.get.bind_reads fun s₁ _ => ?_
          have hitems : ∀ item ∈ [Item.token (s₁.text range)], item.Sound uri size :=
            List.forall_mem_singleton.2 trivial
          exact (ensures_hand hitems field? haround).reads range
      · exact reads_node kind field? children hle hrange haround
          (reads_walkAll children hchildren hle hrange ⟨some kind, none⟩)

theorem reads_walkAll : (trees : List SyntaxTree) → {range : Range} →
    SyntaxTree.nestedIn range trees = true → range.start ≤ range.stop → range.Within size →
    (surroundings : Surroundings) → {around : Open} → around.Sound uri size →
    Reads uri size range around (walkAll surroundings around trees)
  | [], range, _, _, _, surroundings, around, haround => by
    unfold walkAll
    exact (Ensures.pure ⟨haround, rfl⟩).reads range
  | tree :: rest, range, hnested, hle, hrange, surroundings, around, haround => by
    obtain ⟨hin, htree, hrest, hbehind⟩ := SyntaxTree.nestedIn_cons hnested
    have hstop := (Range.encloses_iff.1 hin).2
    unfold walkAll
    intro s hs
    obtain ⟨hnext, hsound, hgrows⟩ :=
      reads_walk tree htree (hrange.mono hin (SyntaxTree.start_le_stop htree)) surroundings
        haround s hs
    obtain ⟨hlast, hsound', hgrows'⟩ :=
      reads_walkAll rest hrest hstop (hrange.mono hbehind hstop)
        { surroundings with previousKind? := some tree.kind } hnext.sound _ hsound
    exact ⟨hnext.trans hlast, hsound', hgrows.append hgrows' (UInt32.le_refl _) hin hbehind⟩

end

end Extract

namespace Document

/-- Whether all that a document holds is sound and lies within its text, and its scopes are in
the order in which the functions end. -/
structure Sound (d : Document) : Prop where
  globals : d.globals.Tidy
  globalsAt : ∃ range, d.globals.location = .of d.uri range
  scopes : ∀ x ∈ d.scopes, x.Tidy
  scopesAt : ∀ x ∈ d.scopes, ∃ r : Range, x.location = .of d.uri r ∧ r.start ≤ r.stop ∧
    r.Within d.text.utf8ByteSize
  ordered : d.scopes.Pairwise VariableScope.ClosesBefore
  symbols : ∀ x ∈ d.symbols, x.Sound d.uri
  references : ∀ r ∈ d.references, r.Sound d.uri d.text.utf8ByteSize

/-- Whatever a document was built from a nested tree of its text, it is sound. -/
theorem sound_ofTree (uri text : String) (modified : Int64) {tree : SyntaxTree}
    (hnested : tree.nested = true) (hroot : tree.range.Within text.utf8ByteSize) :
    (ofTree uri text modified tree).Sound := by
  have hstart := Extract.State.sound_start uri text text.utf8ByteSize
  have hopen : Extract.Open.Sound uri text.utf8ByteSize [] := List.forall_mem_nil _
  obtain ⟨-, hsound, hgrows⟩ :=
    Extract.reads_walk tree hnested hroot ⟨none, none⟩ hopen _ hstart
  obtain ⟨closed, hclosed, hfinishes⟩ := hgrows.finished
  have hscopes : (ofTree uri text modified tree).scopes = closed :=
    hclosed.trans (List.nil_append closed)
  constructor
  case globals => exact hsound.globals
  case globalsAt => exact hsound.globalsAt
  case scopes => exact hsound.finished
  case scopesAt =>
    intro x hx
    rw [hscopes] at hx
    obtain ⟨r, hr, hle, hin⟩ := hfinishes.located x hx
    exact ⟨r, hr, hle, hroot.mono hin hle⟩
  case ordered =>
    rw [hscopes]
    exact hfinishes.ordered
  case symbols => exact hsound.symbols
  case references => exact hsound.references

end Document
end PhpIndex
