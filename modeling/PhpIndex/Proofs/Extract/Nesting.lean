import PhpIndex.Proofs.Extract.Inside
import PhpIndex.Proofs.Extract.Members

/-!
# Findings that nest

Whatever is found in a nested tree lies in the node at which it is recorded, and what a finding is
made of lies in the finding. The invariant is on the constructs around a node: each keeps places in
its own node only, and what has taken up arguments has none beyond the place that was read. Around
an argument nothing is heard of what is in it, since it takes up all arguments but in the place of
its name, where the grammar has none.
Main statements: `Extract.lies_walk`, `findings_nest`.
-/
namespace PhpIndex

namespace SyntaxTree

/-- Whether the node is no argument of a call or what stands for its name is a name. -/
def namesArgument (tree : SyntaxTree) : Bool :=
  tree.kind != "argument" || tree.children.all fun child => !child.isName || child.kind == "name"

theorem kind_of_namesArgument {tree child : SyntaxTree} (h : tree.namesArgument = true)
    (hkind : tree.kind = "argument") (hchild : child ∈ tree.children)
    (hname : child.isName = true) : child.kind = "name" := by
  rw [namesArgument, hkind, bne_self_eq_false, Bool.false_or, List.all_eq_true] at h
  have hnamed := h child hchild
  rwa [hname, Bool.not_true, Bool.false_or, beq_iff_eq] at hnamed

end SyntaxTree

namespace Extract
variable {uri : String} {ordered : Prop} {position : UInt32} {path : List SyntaxTree}
  {around : Open} {s : State}

theorem State.uri_record (s : State) (item : Item) : (s.record item).uri = s.uri :=
  congrArg Frame.uri (s.frame_record item)

/-! ## The constructs around -/

/-- Where the arguments end that were taken up around a node, if those in it end at a position. -/
def endAround (position : UInt32) (node : SyntaxTree) : UInt32 :=
  if node.kind = "argument" then node.range.start else position

theorem endAround_le {position position' : UInt32} (hle : position ≤ position')
    (node : SyntaxTree) : endAround position node ≤ endAround position' node := by
  unfold endAround
  split
  · exact UInt32.le_refl _
  · exact hle

/-- Whether each construct keeps places in its own node only, and no arguments beyond the
position. The nodes are those around, innermost first. -/
def Open.Inside (uri : String) (ordered : Prop) : UInt32 → List SyntaxTree → Open → Prop
  | _, [], [] => True
  | position, node :: path, construct? :: outer =>
    (∀ c ∈ construct?, c.Inside uri ordered node.range position) ∧
      construct?.any Construct.isArgument = decide (node.kind = "argument") ∧
      Open.Inside uri ordered (endAround position node) path outer
  | _, _, _ => False

namespace Open

theorem Inside.mono {position' : UInt32} (h : around.Inside uri ordered position path)
    (hle : ordered → position ≤ position') : around.Inside uri ordered position' path := by
  induction path generalizing around position position' with
  | nil =>
    cases around with
    | nil => trivial
    | cons _ _ => exact h
  | cons node path ih =>
    cases around with
    | nil => exact h
    | cons construct? outer =>
      obtain ⟨hconstruct, hargument, houter⟩ := h
      exact ⟨fun c hc => (hconstruct c hc).mono hle, hargument,
        ih houter fun ho => endAround_le (hle ho) node⟩

end Open

/-- An argument takes up all arguments in it but in the place of its name. -/
theorem Construct.takes_argument {construct : Construct} (hconstruct : construct.isArgument = true)
    {item : Item} (hitem : item.isArgument = true) {place : Place}
    (hplace : place.isField "name" = false) (s : State) :
    ((construct.accept item place).run s).1.2 = true := by
  cases construct with
  | argument entry =>
    cases item with
    | argument a =>
      change (entry.accept (.argument a) place).2 = true
      unfold ArgumentEntry.accept
      simp only [hplace]
      rfl
    | _ => cases hitem
  | _ => cases hconstruct

/-- Whether the item comes from a node in those around. An argument starts behind those before it,
and is not the name of another one. -/
structure Item.Joins (uri : String) (ordered : Prop) (position : UInt32) (path : List SyntaxTree)
    (place : Place) (item : Item) : Prop where
  inside : ∀ n ∈ path, item.Inside uri ordered n.range
  behind : ordered → ∀ a, item = .argument a → position ≤ a.range.start
  unnamed : ordered → item.isArgument = true → place.isField "name" = true →
    ∀ n ∈ path.head?, n.kind ≠ "argument"

namespace Item.Joins
variable {item : Item} {place : Place} {node : SyntaxTree}

theorem le_after (h : item.Joins uri ordered position (node :: path) place) (ho : ordered) :
    position ≤ item.after position := by
  cases item with
  | argument a =>
    have hinside : a.range.Inside node.range := h.inside node List.mem_cons_self
    exact UInt32.le_trans (h.behind ho a rfl) hinside.1
  | _ => exact UInt32.le_refl _

/-- Seen from further out. -/
theorem deeper (h : item.Joins uri ordered position (node :: path) place) :
    item.Joins uri ordered (endAround position node) path .deeper where
  inside n hn := h.inside n (List.mem_cons_of_mem node hn)
  behind ho a ha := by
    subst ha
    unfold endAround
    split
    · have hinside : a.range.Inside node.range := h.inside node List.mem_cons_self
      exact (Range.encloses_iff.1 hinside.2).1
    · exact h.behind ho a rfl
  unnamed _ _ hplace := by cases hplace

/-- An argument that comes from an argument is its name, or it was taken up there. -/
theorem after_endAround (h : item.Joins uri ordered position (node :: path) place)
    {construct : Construct} (hargument : construct.isArgument = decide (node.kind = "argument"))
    (hfree : ((construct.accept item place).run s).1.2 = false) (ho : ordered) :
    item.after (endAround position node) ≤ endAround (item.after position) node := by
  unfold endAround
  split
  next hkind =>
    cases hitem : item.isArgument with
    | false =>
      rw [item.after_of_isArgument hitem]
      exact UInt32.le_refl _
    | true =>
      cases hplace : place.isField "name" with
      | false =>
        rw [construct.takes_argument (hargument.trans (decide_eq_true hkind)) hitem hplace] at hfree
        cases hfree
      | true => exact absurd hkind (h.unnamed ho hitem hplace node rfl)
  · exact UInt32.le_refl _

end Item.Joins

/-- Items that are offered around leave places in their nodes. -/
theorem Open.Inside.offer {item : Item} {place : Place}
    (haround : around.Inside uri ordered position path)
    (hitem : item.Joins uri ordered position path place) (hs : s.uri = uri) :
    ((Extract.offer item place around).run s).1.Inside uri ordered (item.after position) path := by
  -- The item goes outwards, over the nodes on the path, until a construct takes it up.
  induction around generalizing path position place s with
  | nil =>
    cases path with
    | nil => trivial
    | cons _ _ => exact haround
  | cons construct? outer ih =>
    cases path with
    | nil => exact haround.elim
    | cons node path =>
      obtain ⟨hconstruct, hargument, houter⟩ := haround
      cases construct? with
      | none =>
        have hend (position : UInt32) : endAround position node = position :=
          if_neg (of_decide_eq_false hargument.symm)
        have hnone : ∀ c ∈ (none : Option Construct),
            c.Inside uri ordered node.range (item.after position) := fun _ h => by cases h
        have hinner := ih houter hitem.deeper hs
        rw [hend] at houter hinner
        unfold Extract.offer
        split
        next htoken =>
          have hitem' : item.isArgument = false := by
            cases item with
            | token text => rfl
            | _ => cases htoken
          rw [item.after_of_isArgument hitem']
          rw [item.after_of_isArgument hitem'] at hnone
          exact ⟨hnone, hargument, (hend position).symm ▸ houter⟩
        · exact ⟨hnone, hargument, (hend _).symm ▸ hinner⟩
      | some construct =>
        obtain ⟨hnext, hsort⟩ := construct.inside_accept (hitem.inside node List.mem_cons_self) hs
          (hconstruct construct rfl) hitem.behind place
        have huri := (ample_still.accept construct item place s).uri
        have hfree := hitem.after_endAround (s := s) hargument
        have hwider := houter.mono fun ho => endAround_le (hitem.le_after ho) node
        unfold Extract.offer
        rcases hrun : (construct.accept item place).run s with ⟨⟨next, taken⟩, s'⟩
        rw [hrun] at hnext hsort huri hfree
        rw [run_bind_eq hrun]
        have hsome : ∀ c ∈ some next, c.Inside uri ordered node.range (item.after position) := by
          rintro c ⟨⟩
          exact hnext
        simp only
        split
        · exact ⟨hsome, hsort.trans hargument, hwider⟩
        next hon =>
          -- What an argument lets pass is no argument, so the ends further out do not move.
          have htaken : taken = false := by
            cases taken with
            | false => rfl
            | true => exact absurd rfl hon
          exact ⟨hsome, hsort.trans hargument,
            (ih houter hitem.deeper (huri.trans hs)).mono (hfree htaken)⟩

/-! ## Handing items around -/

/-- What a reading has recorded lies in the range, each reference in the node at which it was, and
no construct around keeps arguments that end behind the range. -/
structure Lies (uri : String) (ordered : Prop) (path : List SyntaxTree) (range : Range) (s : State)
    (found : List Mention) (next : Open) (s' : State) : Prop where
  around : next.Inside uri ordered range.stop path
  document : s'.uri = uri
  symbols : ∀ x ∈ s'.symbols, x ∈ s.symbols ∨ x.location.Inside uri range
  found : ∀ m ∈ found, ∃ n ∈ m.path.head?, m.reference.Inside uri ordered n.range

theorem Lies.of_symbols {range : Range} {s' s'' : State} {found : List Mention} {next : Open}
    (h : Lies uri ordered path range s' found next s'') (hsymbols : s'.symbols = s.symbols) :
    Lies uri ordered path range s found next s'' := { h with symbols := hsymbols ▸ h.symbols }

variable {tree : SyntaxTree}

theorem Item.Found.joins {item : Item} (h : item.Found uri ordered tree.range)
    (hpath : ∀ n ∈ path, n.range.encloses tree.range = true) (place : Place) :
    item.Joins uri ordered position path place where
  inside n hn := h.inside.mono (hpath n hn)
  behind _ a ha := by
    subst ha
    cases h.isArgument
  unnamed _ hargument _ := by
    rw [h.isArgument] at hargument
    cases hargument

theorem Item.Inside.of_recorded {item : Item} {range : Range} (h : item.Inside uri ordered range)
    {r : Reference} (hr : item.recorded? = some r) : r.Inside uri ordered range := by
  obtain ⟨value, rfl⟩ := Item.exists_of_recorded? hr
  exact h

theorem Item.Inside.of_symbol {item : Item} {range : Range} (h : item.Inside uri ordered range)
    {x : Symbol} (hx : item.symbol? = some x) : x.location.Inside uri range := by
  cases item with
  | symbol y =>
    obtain rfl := Option.some.inj hx
    exact h
  | _ => cases hx

/-- What is recorded of items that lie in a node, however these are taken up around it. -/
theorem lies_of_hand {items : List Item}
    (hitems : ∀ item ∈ items, item.Inside uri ordered tree.range)
    (field? : Option String) (hs : s.uri = uri)
    (haround : ((hand items field? around).run s).1.Inside uri ordered tree.range.stop path) :
    Lies uri ordered path tree.range s (recorded (tree :: path) items)
      ((hand items field? around).run s).1 ((hand items field? around).run s).2 := by
  constructor
  case around => exact haround
  case document =>
    unfold hand
    clear haround hitems
    induction items generalizing around s with
    | nil => exact hs
    | cons item rest ih =>
      rw [List.foldlM_cons]
      have hrecord : (s.record item).uri = uri := (s.uri_record item).trans hs
      exact ih ((ample_still.offer item _ around _).uri.trans hrecord)
  case symbols =>
    rw [symbols_hand]
    intro x hx
    refine (List.mem_append.1 hx).imp_right fun hx => ?_
    obtain ⟨item, hitem, hsymbol⟩ := List.mem_filterMap.1 hx
    exact (hitems item hitem).of_symbol hsymbol
  case found =>
    intro m hm
    obtain ⟨hpath, item, hitem, hrecorded⟩ := mem_recorded hm
    exact ⟨tree, by rw [hpath]; rfl, (hitems item hitem).of_recorded hrecorded⟩

/-- Items that are no arguments may come from anywhere. -/
theorem lies_hand {items : List Item} (hitems : ∀ item ∈ items, item.Found uri ordered tree.range)
    (hpath : ∀ n ∈ path, n.range.encloses tree.range = true) (field? : Option String)
    (haround : around.Inside uri ordered tree.range.stop path) (hs : s.uri = uri) :
    Lies uri ordered path tree.range s (recorded (tree :: path) items)
      ((hand items field? around).run s).1 ((hand items field? around).run s).2 := by
  refine lies_of_hand (fun item hitem => (hitems item hitem).inside) field? hs ?_
  unfold hand
  induction items generalizing around s with
  | nil => exact haround
  | cons item rest ih =>
    obtain ⟨hitem, hrest⟩ := List.forall_mem_cons.1 hitems
    rw [List.foldlM_cons]
    have hrecord : (s.record item).uri = uri := (s.uri_record item).trans hs
    have hnext := haround.offer (hitem.joins hpath (.child field?)) hrecord
    rw [item.after_of_isArgument hitem.isArgument] at hnext
    exact ih hrest hnext ((ample_still.offer item _ around _).uri.trans hrecord)

/-! ## Nodes -/

theorem found_atom {kind : String} {field? : Option String} {range : Range}
    (hrange : range.start ≤ range.stop) (around : Surroundings) (hs : s.uri = uri) :
    ∀ item ∈ atom? kind field? range around s, item.Found uri ordered range := by
  have hself := Range.inside_self hrange
  have hlocation := s.inside_locate hs hself
  unfold atom?
  simp only
  split
  · rintro item ⟨⟩
    unfold nameItem
    simp only
    split
    · exact s.found_classReference hs _ hself
    · split
      · exact ⟨.of_bare hlocation rfl rfl, rfl⟩
      · exact ⟨hself, rfl⟩
  · split
    · split
      · rintro item ⟨⟩
        exact ⟨hself, rfl⟩
      · rintro item ⟨⟩
        exact ⟨.of_bare hlocation rfl rfl, rfl⟩
    · split
      · rintro item ⟨⟩
        exact ⟨hself, rfl⟩
      · split
        · rintro item ⟨⟩
          exact ⟨hself, rfl⟩
        · split
          · rintro item ⟨⟩
            exact ⟨hself, rfl⟩
          · split
            · intro item hitem
              obtain ⟨word, -, rfl⟩ := Option.map_eq_some_iff.1 hitem
              exact ⟨trivial, rfl⟩
            · split
              · rintro item ⟨⟩
                exact ⟨trivial, rfl⟩
              · intro item hitem
                obtain ⟨type, -, rfl⟩ := Option.map_eq_some_iff.1 hitem
                exact ⟨trivial, rfl⟩

def Role.isArgument : Role → Bool
  | .argument => true
  | _ => false

/-- A construct that is opened has kept nothing yet. -/
theorem Role.inside_start (role : Role) (tree : SyntaxTree) (s : State) :
    ((role.start tree).run s).1.Inside uri ordered tree.range position ∧
      ((role.start tree).run s).1.isArgument = role.isArgument := by
  have hnone {α : Type} (p : α → Prop) : ∀ a ∈ (none : Option α), p a := fun _ h => by cases h
  cases role with
  | useStatement => exact ⟨List.forall_mem_nil _, rfl⟩
  | useName => exact ⟨hnone _, rfl⟩
  | nameList role => exact ⟨List.forall_mem_nil _, rfl⟩
  | parameter promoted variadic => exact ⟨hnone _, rfl⟩
  | typeHint nullable => exact ⟨List.forall_mem_nil _, rfl⟩
  | properties => exact ⟨List.forall_mem_nil _, rfl⟩
  | constants => exact ⟨List.forall_mem_nil _, rfl⟩
  | call => exact ⟨⟨hnone _, hnone _⟩, rfl⟩
  | creation => exact ⟨⟨hnone _, hnone _⟩, rfl⟩
  | member kind => exact ⟨⟨hnone _, hnone _, hnone _⟩, rfl⟩
  | arguments =>
    exact ⟨⟨List.forall_mem_nil _, fun _ => .nil, fun _ => List.forall_mem_nil _⟩, rfl⟩
  | _ => exact ⟨trivial, rfl⟩

theorem Construct.inside_withDoc {construct next : Construct} {doc : DocComment} {outer : Range}
    (h : construct.Inside uri ordered outer position) (hdoc : construct.withDoc doc = some next) :
    next.Inside uri ordered outer position ∧ next.isArgument = construct.isArgument := by
  cases construct with
  | callable c =>
    obtain rfl := Option.some.inj hdoc
    exact ⟨trivial, rfl⟩
  | classBody c =>
    obtain rfl := Option.some.inj hdoc
    exact ⟨trivial, rfl⟩
  | properties g =>
    obtain rfl := Option.some.inj hdoc
    exact ⟨h, rfl⟩
  | constants g =>
    obtain rfl := Option.some.inj hdoc
    exact ⟨h, rfl⟩
  | assignment a =>
    obtain rfl := Option.some.inj hdoc
    exact ⟨trivial, rfl⟩
  | call c =>
    obtain rfl := Option.some.inj hdoc
    exact ⟨{ h with }, rfl⟩
  | _ => cases hdoc

theorem Role.any_isArgument (kind : String) :
    (ofKind? kind).any Role.isArgument = decide (kind = "argument") := by
  have htable : ∀ p ∈ table, p.2.isArgument = decide (p.1 = "argument") := by decide
  cases hrole : ofKind? kind with
  | none =>
    refine (decide_eq_false fun hkind => ?_).symm
    rw [hkind] at hrole
    cases hrole
  | some role => exact htable _ (Role.mem_table hrole)

/-- What is opened at a node keeps nothing yet, and is an argument at an argument only. -/
theorem inside_enter (tree : SyntaxTree) (s : State) :
    (∀ c ∈ ((enter tree).run s).1, c.Inside uri ordered tree.range position) ∧
      ((enter tree).run s).1.any Construct.isArgument = decide (tree.kind = "argument") := by
  rw [← Role.any_isArgument]
  rcases enter_cases tree s with ⟨hrole, hnone⟩ | ⟨role, next, hrole, hnext, heq⟩
  · rw [hrole, hnone]
    exact ⟨fun _ h => (by cases h), rfl⟩
  · obtain ⟨hstart, hsort⟩ : ((role.start tree).run s).1.Inside uri ordered tree.range position ∧
        ((role.start tree).run s).1.isArgument = role.isArgument := role.inside_start tree s
    rw [hrole, hnext, Option.any_some, Option.any_some, ← hsort]
    rcases heq with rfl | ⟨doc, hdoc⟩
    · refine ⟨?_, rfl⟩
      rintro c ⟨⟩
      exact hstart
    · obtain ⟨hinside, hargument⟩ := Construct.inside_withDoc hstart hdoc
      refine ⟨?_, hargument⟩
      rintro c ⟨⟩
      exact hinside

/-- Leaving a node hands on what lies in it. An argument is not heard of before. -/
theorem lies_leave (htree : tree.range.start ≤ tree.range.stop)
    (hpath : ∀ n ∈ path, n.range.encloses tree.range = true)
    (hname : ordered → tree.isName = true → ∀ n ∈ path.head?, n.kind = "argument" →
      tree.kind = "name") {construct? : Option Construct}
    (haround : Open.Inside uri ordered tree.range.stop (tree :: path) (construct? :: around))
    (hs : s.uri = uri) :
    Lies uri ordered path tree.range s
      (recorded (tree :: path) (itemsLeft tree.range s (construct? :: around)))
      ((leave construct? tree.field? tree.range around).run s).1
      ((leave construct? tree.field? tree.range around).run s).2 := by
  obtain ⟨hconstruct, hargument, houter⟩ := haround
  unfold endAround at houter
  cases construct? with
  | none =>
    rw [if_neg (of_decide_eq_false hargument.symm)] at houter
    exact ⟨houter, hs, fun x hx => .inl hx, List.forall_mem_nil _⟩
  | some construct =>
    have hinside := hconstruct construct rfl
    have hdocument := (ample_still.finish construct tree.range s).uri.trans hs
    have hsymbols := (ample_still.finish construct tree.range s).symbols
    rw [Option.any_some] at hargument
    unfold leave itemsLeft
    cases hsort : construct.isArgument with
    | false =>
      have hitems := Construct.found_finish htree hs hinside hsort
      rw [hsort] at hargument
      rw [if_neg (of_decide_eq_false hargument.symm)] at houter
      rcases hrun : (construct.finish tree.range).run s with ⟨items, s'⟩
      rw [hrun] at hitems hdocument hsymbols
      simp only
      rw [run_bind_eq hrun, hrun]
      exact (lies_hand hitems hpath tree.field? houter hdocument).of_symbols hsymbols
    | true =>
      rw [hsort] at hargument
      have hkind : tree.kind = "argument" := of_decide_eq_true hargument.symm
      rw [if_pos hkind] at houter
      cases construct with
      | argument entry =>
        let a : Argument := ⟨tree.range, (entry.value?.getD (tree.range, .empty)).1,
          (entry.value?.getD (tree.range, .empty)).2⟩
        have hjoins : Item.Joins uri ordered tree.range.start path (.child tree.field?)
            (.argument a) := by
          constructor
          case inside => exact fun n hn => (Range.inside_self htree).mono (hpath n hn)
          case behind =>
            rintro - _ ⟨⟩
            exact UInt32.le_refl _
          case unnamed =>
            intro ho _ hplace n hn hparent
            have hnamed := hname ho hplace n hn hparent
            rw [hkind] at hnamed
            exact absurd hnamed (by decide)
        have hself : (Item.argument a).Inside uri ordered tree.range := Range.inside_self htree
        exact lies_of_hand (List.forall_mem_singleton.2 hself) tree.field? hs
          (houter.offer hjoins hs)
      | _ => cases hsort

theorem Lies.mono {range outer : Range} {s' : State} {found : List Mention} {next : Open}
    (h : Lies uri ordered path range s found next s') (hin : outer.encloses range = true) :
    Lies uri ordered path outer s found next s' where
  around := h.around.mono fun _ => (Range.encloses_iff.1 hin).2
  document := h.document
  symbols x hx := (h.symbols x hx).imp_right fun hx => hx.mono hin
  found := h.found

/-- Readings one after the other. -/
theorem Lies.append {first second : Range} {s' s'' : State} {found found' : List Mention}
    {next next' : Open} (h : Lies uri ordered path first s found next s')
    (h' : Lies uri ordered path second s' found' next' s'') {outer : Range}
    (hfirst : outer.encloses first = true) (hsecond : outer.encloses second = true) :
    Lies uri ordered path outer s (found ++ found') next' s'' where
  around := (h'.mono hsecond).around
  document := h'.document
  symbols x hx := (h'.symbols x hx).elim
    (fun hx => (h.symbols x hx).imp_right fun hx => hx.mono hfirst)
    fun hx => .inr (hx.mono hsecond)
  found := List.forall_mem_append.2 ⟨h.found, h'.found⟩

/-- What a node opens keeps places in the node while its children are read. -/
theorem lies_node (tree : SyntaxTree) (htree : tree.range.start ≤ tree.range.stop)
    (hpath : ∀ n ∈ path, n.range.encloses tree.range = true)
    (hname : ordered → tree.isName = true → ∀ n ∈ path.head?, n.kind = "argument" →
      tree.kind = "name")
    (haround : around.Inside uri ordered tree.range.start path) (hs : s.uri = uri)
    {construct? : Option Construct} {s₁ : State} (henter : (enter tree).run s = (construct?, s₁))
    {found : List Mention} {next : Open} {s₂ : State}
    (hinside : Open.Inside uri ordered tree.range.start (tree :: path) (construct? :: around) →
      s₁.uri = uri → Lies uri ordered (tree :: path) tree.range s₁ found next s₂) :
    ∃ next? outer, next = next? :: outer ∧ Lies uri ordered path tree.range s
      (found ++ recorded (tree :: path) (itemsLeft tree.range s₂ next))
      ((leave next? tree.field? tree.range outer).run s₂).1
      ((leave next? tree.field? tree.range outer).run s₂).2 := by
  have hentered : (∀ c ∈ ((enter tree).run s).1, c.Inside uri ordered tree.range tree.range.start) ∧
      ((enter tree).run s).1.any Construct.isArgument = decide (tree.kind = "argument") :=
    inside_enter tree s
  have hdocument := (ample_still.enter tree s).uri
  have hsymbols := (ample_still.enter tree s).symbols
  rw [henter] at hentered hdocument hsymbols
  have houter : around.Inside uri ordered (endAround tree.range.start tree) path := by
    unfold endAround
    split <;> exact haround
  have hlies := hinside ⟨hentered.1, hentered.2, houter⟩ (hdocument.trans hs)
  cases next with
  | nil => exact hlies.around.elim
  | cons next? outer =>
    have hleave := lies_leave htree hpath hname hlies.around hlies.document
    refine ⟨next?, outer, rfl, ?_⟩
    constructor
    case around => exact hleave.around
    case document => exact hleave.document
    case symbols =>
      exact fun x hx => (hleave.symbols x hx).elim (fun hx => hsymbols ▸ hlies.symbols x hx) .inr
    case found => exact List.forall_mem_append.2 ⟨hlies.found, hleave.found⟩

mutual

/-- All that is recorded in a nested tree lies in it. -/
theorem lies_walk : (tree : SyntaxTree) → tree.nested = true →
    (ordered → tree.all SyntaxTree.namesArgument = true) → (surroundings : Surroundings) →
    {around : Open} → {path : List SyntaxTree} → {position : UInt32} →
    around.Inside uri ordered position path →
    (∀ n ∈ path, n.range.encloses tree.range = true) → (ordered → position ≤ tree.range.start) →
    (ordered → tree.isName = true → ∀ n ∈ path.head?, n.kind = "argument" → tree.kind = "name") →
    {s : State} → s.uri = uri →
    Lies uri ordered path tree.range s (mentions path surroundings around s tree)
      ((walk surroundings around tree).run s).1 ((walk surroundings around tree).run s).2
  | .node kind field? range children, hnested, hnames, surroundings, around, path, position,
    haround, hpath, hposition, hname, s, hs => by
    rw [SyntaxTree.nested, Bool.and_eq_true, decide_eq_true_eq] at hnested
    obtain ⟨hle, hchildren⟩ := hnested
    have hdocument := (ample_still.quiet.noteComment kind range s).uri.trans hs
    have hsymbols := (ample_still.quiet.noteComment kind range s).symbols
    have hahead : around.Inside uri ordered range.start path := haround.mono hposition
    have hbehind : around.Inside uri ordered range.stop path := hahead.mono fun _ => hle
    cases hatom : atom? kind field? range surroundings (noteComment kind range s) with
    | some item =>
      have hitem : item.Found uri ordered range :=
        found_atom hle surroundings hdocument item hatom
      obtain ⟨doc?, hrun⟩ := run_walk_atom around children hatom
      rw [hrun, mentions_atom hatom]
      exact (lies_hand (s := { noteComment kind range s with doc? })
        (List.forall_mem_singleton.2 hitem) hpath field? hbehind hdocument).of_symbols hsymbols
    | none =>
      cases children with
      | nil =>
        rw [run_walk_leaf hatom, mentions_leaf hatom]
        split
        · exact ⟨hbehind, hdocument, fun x hx => .inl (hsymbols ▸ hx), List.forall_mem_nil _⟩
        · have htoken : ∀ item ∈ [Item.token ((noteComment kind range s).text range)],
              item.Found uri ordered (SyntaxTree.node kind field? range []).range :=
            List.forall_mem_singleton.2 ⟨trivial, rfl⟩
          exact (lies_hand htoken hpath field? hbehind hdocument).of_symbols hsymbols
      | cons tree rest =>
        rcases henter : (enter (.node kind field? range (tree :: rest))).run
          (noteComment kind range s) with ⟨construct?, s₁⟩
        rcases hwalk : (walkAll ⟨some kind, none⟩ (construct? :: around) (tree :: rest)).run s₁
          with ⟨next, s₂⟩
        -- The children come behind all that was taken up: what is open keeps its place until the
        -- start of the node, and there the first child begins.
        have hinside (hopen : Open.Inside uri ordered range.start
            (.node kind field? range (tree :: rest) :: path) (construct? :: around))
            (hs₁ : s₁.uri = uri) := by
          have hlies := lies_walkAll (tree :: rest) hchildren hle
            (fun ho => (Bool.and_eq_true_iff.1 (hnames ho)).2) ⟨some kind, none⟩ hopen
            (List.forall_mem_cons.2 ⟨range.encloses_refl, hpath⟩) (fun _ => UInt32.le_refl _)
            (fun ho t ht ht' => by
              rintro _ ⟨⟩ hkind
              exact SyntaxTree.kind_of_namesArgument (Bool.and_eq_true_iff.1 (hnames ho)).1 hkind
                ht ht') hs₁
          rwa [hwalk] at hlies
        obtain ⟨next?, outer, rfl, hlies⟩ :=
          lies_node (.node kind field? range (tree :: rest)) hle hpath hname hahead hdocument henter
            hinside
        rw [run_walk_node hatom rfl henter hwalk, mentions_node hatom rfl henter hwalk]
        exact hlies.of_symbols hsymbols

theorem lies_walkAll : (trees : List SyntaxTree) → {range : Range} →
    SyntaxTree.nestedIn range trees = true → range.start ≤ range.stop →
    (ordered → SyntaxTree.allIn SyntaxTree.namesArgument trees = true) →
    (surroundings : Surroundings) → {around : Open} → {path : List SyntaxTree} →
    {position : UInt32} → around.Inside uri ordered position path →
    (∀ n ∈ path, n.range.encloses range = true) → (ordered → position ≤ range.start) →
    (ordered → ∀ t ∈ trees, t.isName = true → ∀ n ∈ path.head?, n.kind = "argument" →
      t.kind = "name") →
    {s : State} → s.uri = uri →
    Lies uri ordered path range s (mentionsIn path surroundings around s trees)
      ((walkAll surroundings around trees).run s).1 ((walkAll surroundings around trees).run s).2
  | [], range, _, hle, _, surroundings, around, path, position, haround, hpath, hposition, _, s,
    hs => by
    unfold walkAll mentionsIn
    exact ⟨haround.mono fun ho => UInt32.le_trans (hposition ho) hle, hs, fun x hx => .inl hx,
      List.forall_mem_nil _⟩
  | tree :: rest, range, hnested, hle, hnames, surroundings, around, path, position, haround, hpath,
    hposition, hname, s, hs => by
    obtain ⟨hin, htree, hrest, hbehind⟩ := SyntaxTree.nestedIn_cons hnested
    obtain ⟨hstart, hstop⟩ := Range.encloses_iff.1 hin
    have hnames' (ho : ordered) := Bool.and_eq_true_iff.1 (hnames ho)
    have hfirst := lies_walk tree htree (fun ho => (hnames' ho).1) surroundings haround
      (fun n hn => Range.encloses_trans (hpath n hn) hin)
      (fun ho => UInt32.le_trans (hposition ho) hstart)
      (fun ho => hname ho tree List.mem_cons_self) hs
    rcases hwalk : (walk surroundings around tree).run s with ⟨next, s'⟩
    rw [hwalk] at hfirst
    have hsecond := lies_walkAll rest hrest hstop (fun ho => (hnames' ho).2)
      { surroundings with previousKind? := some tree.kind } hfirst.around
      (fun n hn => Range.encloses_trans (hpath n hn) hbehind) (fun _ => UInt32.le_refl _)
      (fun ho t ht => hname ho t (List.mem_cons_of_mem tree ht)) hfirst.document
    unfold walkAll mentionsIn
    rw [run_bind_eq hwalk, hwalk]
    exact hfirst.append hsecond hin hbehind

end

end Extract
/-! ## Paths -/

namespace SyntaxTree

theorem nested_of_mem {trees : List SyntaxTree} {range : Range} (h : nestedIn range trees = true) :
    ∀ t ∈ trees, t.nested = true ∧ range.encloses t.range = true := by
  induction trees generalizing range with
  | nil => exact List.forall_mem_nil _
  | cons tree rest ih =>
    obtain ⟨hin, htree, hrest, hbehind⟩ := nestedIn_cons h
    refine List.forall_mem_cons.2 ⟨⟨htree, hin⟩, fun t ht => ?_⟩
    exact ⟨(ih hrest t ht).1, Range.encloses_trans hbehind (ih hrest t ht).2⟩

theorem nested_child {tree child : SyntaxTree} (h : tree.nested = true)
    (hchild : child ∈ tree.children) :
    child.nested = true ∧ tree.range.encloses child.range = true := by
  cases tree with
  | node kind field? range children =>
    rw [nested, Bool.and_eq_true] at h
    exact nested_of_mem h.2 child hchild

/-- Each node on a path lies in all those around it. -/
theorem IsPath.encloses {root : SyntaxTree} (hroot : root.nested = true) {path : List SyntaxTree}
    (h : root.IsPath path) : root ∈ path ∧
      ∀ n ∈ path.head?, n.nested = true ∧ ∀ m ∈ path, m.range.encloses n.range = true := by
  induction h with
  | root =>
    refine ⟨List.mem_singleton_self _, ?_⟩
    rintro _ ⟨⟩
    exact ⟨hroot, List.forall_mem_singleton.2 root.range.encloses_refl⟩
  | @child tree parent path _ htree ih =>
    obtain ⟨hmem, hpath⟩ := ih
    refine ⟨List.mem_cons_of_mem _ hmem, ?_⟩
    rintro _ ⟨⟩
    obtain ⟨hparent, hencloses⟩ := hpath parent rfl
    obtain ⟨hchild, hin⟩ := nested_child hparent htree
    exact ⟨hchild, List.forall_mem_cons.2 ⟨tree.range.encloses_refl,
      fun m hm => Range.encloses_trans (hencloses m hm) hin⟩⟩

end SyntaxTree

/-! ## Documents -/

namespace Document
variable (uri text : String) (modified : Int64) {tree : SyntaxTree}

theorem lies_ofTree (ordered : Prop) (hnested : tree.nested = true)
    (hnames : ordered → tree.all SyntaxTree.namesArgument = true) :
    Extract.Lies uri ordered [] tree.range (.start uri text) (mentions uri text tree)
      ((Extract.walk ⟨none, none⟩ [] tree).run (.start uri text)).1
      ((Extract.walk ⟨none, none⟩ [] tree).run (.start uri text)).2 :=
  have haround : Extract.Open.Inside uri ordered tree.range.start [] [] := trivial
  Extract.lies_walk tree hnested hnames ⟨none, none⟩ haround (List.forall_mem_nil _)
    (fun _ => UInt32.le_refl _) (fun _ _ => nofun) rfl

/-- A reference lies in the node at which it was recorded, and so in the scope that it tells. -/
theorem inside_mention (ordered : Prop) (hnested : tree.nested = true)
    (hnames : ordered → tree.all SyntaxTree.namesArgument = true) :
    ∀ m ∈ mentions uri text tree, m.reference.Inside uri ordered tree.range ∧
      ((extent text).encloses tree.range = true →
        ∀ q ∈ m.reference.scopeRange?, m.reference.location.Inside uri q) := by
  intro m hm
  obtain ⟨n, hn, hinside⟩ := (lies_ofTree uri text ordered hnested hnames).found m hm
  obtain ⟨hmem, hpath⟩ := (isPath_mentions uri text m hm).encloses hnested
  obtain ⟨-, hencloses⟩ := hpath n hn
  refine ⟨hinside.mono (hencloses tree hmem), fun hroot q hq => ?_⟩
  rw [scopeRange?_mention uri text hnested hm hq]
  cases hfunction : m.function? with
  | none => exact hinside.location.mono (Range.encloses_trans hroot (hencloses tree hmem))
  | some f => exact hinside.location.mono (hencloses f (List.mem_of_find?_eq_some hfunction))

theorem location_globals (hnested : tree.nested = true) :
    (ofTree uri text modified tree).globals.location = .of uri (extent text) :=
  (traces_ofTree uri text hnested).globals

theorem encloses_extent {range : Range} (hrange : range.Within text.utf8ByteSize)
    (hsize : text.utf8ByteSize < UInt32.size) : (extent text).encloses range = true := by
  refine Range.encloses_iff.2 ⟨UInt32.zero_le, ?_⟩
  rw [UInt32.le_iff_toNat_le, extent, UInt32.toNat_ofNat_of_lt' hsize]
  exact hrange.2

end Document

/-- Whether the location is a range of the document within a text of so many bytes. -/
def Location.Within (uri : String) (size : Nat) (l : Location) : Prop :=
  ∃ range : Range, l = .of uri range ∧ range.start ≤ range.stop ∧ range.Within size

theorem Location.Inside.within {uri : String} {outer : Range} {l : Location} {size : Nat}
    (h : l.Inside uri outer) (houter : outer.Within size) : l.Within uri size := by
  obtain ⟨range, hrange, hle, hin⟩ := h
  exact ⟨range, hrange, hle, houter.mono hin hle⟩

/-- For every nested tree of a text: all declarations, scopes and references lie in the text. A
member lies in the reference to it, a reference in the scope that it tells, and arguments in the
reference to their list, one behind the other if the tree names arguments as the grammar does. -/
theorem findings_nest (uri text : String) (modified : Int64) {tree : SyntaxTree}
    (hnested : tree.nested = true) (hroot : tree.range.Within text.utf8ByteSize) :
    let d := Document.ofTree uri text modified tree
    let size := text.utf8ByteSize
    (∀ x ∈ d.symbols, x.location.Within uri size) ∧
      (∀ x ∈ d.globals :: d.scopes, x.location.Within uri size) ∧
      ∀ r ∈ d.references, ∃ range : Range, r.location = .of uri range ∧
        range.start ≤ range.stop ∧ range.Within size ∧
        (∀ m ∈ r.memberRange?, m.Inside range) ∧
        (size < UInt32.size → ∀ q ∈ r.scopeRange?, range.Inside q) ∧
        (∀ a ∈ r.arguments, a.Inside range) ∧
        (tree.all SyntaxTree.namesArgument = true → r.arguments.Pairwise Range.Before) := by
  intro d size
  refine ⟨fun x hx => ?symbols, List.forall_mem_cons.2 ⟨?globals, ?scopes⟩, fun r hr => ?references⟩
  case symbols =>
    have hlies := Document.lies_ofTree uri text False hnested False.elim
    exact ((hlies.symbols x hx).resolve_left List.not_mem_nil).within hroot
  case globals =>
    refine ⟨Document.extent text, Document.location_globals uri text modified hnested,
      UInt32.zero_le, Nat.zero_le _, ?_⟩
    exact Nat.mod_le _ _
  case scopes => exact (Document.sound_ofTree uri text modified hnested hroot).scopesAt
  case references =>
    rw [Document.references_eq_mentions uri text modified hnested] at hr
    obtain ⟨m, hm, rfl⟩ := List.mem_map.1 hr
    obtain ⟨hinside, hscope⟩ := Document.inside_mention uri text
      (tree.all SyntaxTree.namesArgument = true) hnested id m hm
    obtain ⟨range, hlocation, hrange⟩ := hinside.location
    have hself : m.reference.range? = some range := congrArg Location.range? hlocation
    refine ⟨range, hlocation, hrange.1, hroot.mono hrange.2 hrange.1,
      fun n hn => hinside.member n hn range hself, fun hsize q hq => ?_,
      fun a ha => hinside.arguments a ha range hself, hinside.inOrder⟩
    obtain ⟨range', hlocation', hrange'⟩ :=
      hscope (Document.encloses_extent text hroot hsize) q hq
    rw [hlocation'] at hlocation
    cases hlocation
    exact hrange'

/-- A call of a method with two arguments, the second one with what stands for its name. -/
def callOf (name : SyntaxTree) : SyntaxTree :=
  let «variable» (field? : Option String) (start : UInt32) : SyntaxTree :=
    .node "variable_name" field? ⟨start, start + 2⟩
      [.node "$" none ⟨start, start + 1⟩ [], .node "name" none ⟨start + 1, start + 2⟩ []]
  .node "program" none ⟨0, 20⟩
    [.node "php_tag" none ⟨0, 5⟩ [],
     .node "expression_statement" none ⟨6, 20⟩
      [.node "member_call_expression" none ⟨6, 19⟩
        [«variable» (some "object") 6,
         .node "->" none ⟨8, 10⟩ [],
         .node "name" (some "name") ⟨10, 11⟩ [],
         .node "arguments" (some "arguments") ⟨11, 19⟩
          [.node "(" none ⟨11, 12⟩ [],
           .node "argument" none ⟨12, 14⟩ [«variable» none 12],
           .node "," none ⟨14, 15⟩ [],
           .node "argument" none ⟨15, 18⟩
            [name,
             .node ":" none ⟨16, 17⟩ [],
             .node "integer" none ⟨17, 18⟩ []],
           .node ")" none ⟨18, 19⟩ []]],
       .node ";" none ⟨19, 20⟩ []]]

theorem findings_nest_call :
    let source := "<?php $a->m($b,n:1);"
    let tree := callOf (.node "name" (some "name") ⟨15, 16⟩ [])
    let d := Document.ofTree "a.php" source 0 tree
    (tree.nested = true ∧ tree.range.Within source.utf8ByteSize ∧
        tree.all SyntaxTree.namesArgument = true ∧ source.utf8ByteSize < UInt32.size) ∧
      d.references.map (fun r => (r.range?, r.memberRange?, r.arguments)) =
        [(some ⟨6, 8⟩, none, []), (some ⟨12, 14⟩, none, []),
          (some ⟨11, 19⟩, none, [⟨12, 14⟩, ⟨15, 18⟩]), (some ⟨6, 11⟩, some ⟨10, 11⟩, [])] ∧
      ∀ r ∈ d.references, ∃ range : Range, r.location = .of "a.php" range ∧
        (∀ m ∈ r.memberRange?, m.Inside range) ∧ (∀ q ∈ r.scopeRange?, range.Inside q) ∧
        (∀ a ∈ r.arguments, a.Inside range) ∧ r.arguments.Pairwise Range.Before := by
  intro source tree d
  have hnested : tree.nested = true := by decide
  have hwithin : tree.range.Within source.utf8ByteSize := by decide
  have hnames : tree.all SyntaxTree.namesArgument = true := by decide
  have hsize : source.utf8ByteSize < UInt32.size := by decide
  obtain ⟨-, -, hreferences⟩ := findings_nest "a.php" source 0 hnested hwithin
  refine ⟨⟨hnested, hwithin, hnames, hsize⟩, by decide +kernel, fun r hr => ?_⟩
  obtain ⟨range, hlocation, -, -, hmember, hscope, harguments, hlined⟩ := hreferences r hr
  exact ⟨range, hlocation, hmember, hscope hsize, harguments, hlined hnames⟩

/-- An argument in the place of a name is listed in front of the one that it names, within it. -/
theorem findings_nest_unnamed :
    let argument := .node "argument" (some "name") ⟨15, 16⟩ [.node "integer" none ⟨15, 16⟩ []]
    let source := "<?php $a->m($b,n:1);"
    let tree := callOf argument
    let d := Document.ofTree "a.php" source 0 tree
    (tree.nested = true ∧ tree.range.Within source.utf8ByteSize) ∧
      d.references.map Reference.arguments = [[], [], [⟨12, 14⟩, ⟨15, 16⟩, ⟨15, 18⟩], []] ∧
      ¬ ∀ r ∈ d.references, r.arguments.Pairwise Range.Before := by
  decide +kernel

end PhpIndex
