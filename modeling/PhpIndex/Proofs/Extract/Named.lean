import PhpIndex.Proofs.Extract.Inside
import PhpIndex.Proofs.Extract.Recording
import PhpIndex.Proofs.Extract.Tracking
import PhpIndex.Proofs.Name.LastSegment

/-!
# Where declarations are named

Each declaration is made at a node in which another one names it, and its short name is the last
segment of the text there. A class or a function takes its name from the part for it, and the
namespace goes in front. Only a call declares a constant by a text in quotes. Whether any text is
left is asked of nothing but that one, as a whole, and of the class that a member belongs to.
Main statement: `named_ofTree`.
-/
namespace PhpIndex

namespace SyntaxTree

/-- The kinds of nodes whose text is a name. -/
def namingKinds : List String := "variable_name" :: Extract.nameKinds

/-- Whether a name stands at the node or below it. -/
structure Names (node name : SyntaxTree) : Prop where
  holds : node.Holds name
  kind : name.kind ∈ namingKinds

/-- Whether it stands in the part that is for the name of the node. -/
structure Heads (node name : SyntaxTree) : Prop where
  child : name ∈ node.children
  field : name.field? = some "name"

theorem Names.mono {outer node name : SyntaxTree} (h : outer.Holds node) (hname : node.Names name) :
    outer.Names name := ⟨h.trans hname.holds, hname.kind⟩

end SyntaxTree

namespace Symbol

/-- Whether a declaration of this sort has a part for its name. -/
def isHeaded : Symbol → Bool
  | .classLike _ => true
  | .function _ => true
  | .method _ => true
  | _ => false

/-- What is declared under a name. That of a property stands behind a dollar sign. -/
def spelled (x : Symbol) (text : String) : String :=
  match x with
  | .property _ => Text.trimStart (· == '$') text
  | _ => text

/-- Whether a name in the node is that of the declaration. -/
structure NamedBy (x : Symbol) (source : String) (node name : SyntaxTree) : Prop where
  names : node.Names name
  heads : x.isHeaded = true → node.Heads name
  shortName : x.shortName = Text.afterLast '\\' (x.spelled (name.range.text source))

/-- Whether a constant is declared by a call, under the name that is quoted somewhere. -/
def Quoted (x : Symbol) (source : String) : Prop :=
  x.kind = .defineConstant ∧ ∃ (range : Range) (quoted : String),
    Extract.FunctionCall.unquote? (Text.trimBlank (range.text source)) = some quoted ∧
      x.name = Imports.trimLead quoted ∧ x.name ≠ ""

/-- Whether the declaration is made at a node in this one. -/
def NamedIn (x : Symbol) (uri source : String) (outer : SyntaxTree) : Prop :=
  ∃ node, outer.Holds node ∧ x.location = .of uri node.range ∧
    ((∃ name, x.NamedBy source node name) ∨ x.Quoted source)

end Symbol

namespace Extract
variable {uri source : String} {node : SyntaxTree} {s : State}

/-! ## Items -/

/-- Whether one name of a declaration is written at a node in this one. -/
def Element.NamedIn (e : Element) (source : String) (outer : SyntaxTree) : Prop :=
  ∃ node name, outer.Holds node ∧ e.range = node.range ∧ node.Names name ∧
    name.range.text source = e.name

theorem Element.NamedIn.mono {e : Element} {outer : SyntaxTree} (h : outer.Holds node)
    (he : e.NamedIn source node) : e.NamedIn source outer := by
  obtain ⟨at_, name, hin, hrange, hname, htext⟩ := he
  exact ⟨at_, name, h.trans hin, hrange, hname, htext⟩

/-- Whether an item that tells of a name, or declares something, has it from its node. -/
def Item.Named (uri source : String) (node : SyntaxTree) : Item → Prop
  | .name text range => node.Names node ∧ node.range = range ∧ range.text source = text
  | .element e => e.NamedIn source node
  | .symbol x => (∀ scope ∈ x.scope?, scope ≠ "") ∧ x.NamedIn uri source node
  | _ => True

/-- The sorts of items that tell of a name or declare something. -/
def namingSorts : List ItemSort := [.name, .element, .symbol]

theorem Item.named_of_sort {item : Item} (h : item.sort ∉ namingSorts) :
    item.Named uri source node := by
  cases item with
  | name text range => simp [sort, namingSorts] at h
  | element e => simp [sort, namingSorts] at h
  | symbol x => simp [sort, namingSorts] at h
  | _ => trivial

/-- What a construct keeps of the names in its node. -/
def Construct.Named (source : String) (node : SyntaxTree) : Construct → Prop
  | .classBody c => ∀ known ∈ c.name?, ∃ name, node.Names name ∧ node.Heads name ∧
      Text.afterLast '\\' known = Text.afterLast '\\' (name.range.text source)
  | .callable c => ∀ text ∈ c.name?, ∃ name, node.Names name ∧ node.Heads name ∧
      name.range.text source = text
  | .enumCase e => ∀ text ∈ e.name?, ∃ name, node.Names name ∧ name.range.text source = text
  | .element e => ∀ text ∈ e.name?, ∃ name, node.Names name ∧ name.range.text source = text
  | .parameter p => ∀ known ∈ p.name?, ∃ name, node.Names name ∧ name.range = known.2 ∧
      Text.trimStart (· == '$') (name.range.text source) = known.1
  | .properties g => ∀ e ∈ g.elements, e.NamedIn source node
  | .constants g => ∀ e ∈ g.elements, e.NamedIn source node
  | construct => construct.Holding fun item => item.sort = .reference

def named (uri source : String) : Tracking where
  item := Item.Named uri source
  construct := Construct.Named source
  imports _ := True

/-- Whether the state is one of a reading of the document. -/
abbrev State.Named (uri source : String) (s : State) : Prop := s.Reads uri source fun _ => True

theorem State.Named.locate_eq (hs : s.Named uri source) (range : Range) :
    s.locate range = .of uri range := by
  rw [State.locate, hs.uri]

/-- No member is recorded for a class without a name. -/
theorem State.memberScope?_ne_empty {scope : String} (h : s.memberScope? = some scope) :
    scope ≠ "" := by
  unfold memberScope? at h
  split at h
  · cases h
  next c _ _ =>
    split at h
    · cases h
    next hnamed =>
      cases h
      rintro hempty
      simp [hempty] at hnamed

theorem State.Named.atom (hs : s.Named uri source) {surroundings : Surroundings} {item : Item}
    (hatom : atom? node.kind node.field? node.range surroundings s = some item) :
    item.Named uri source node := by
  have hname (hkind : node.kind ∈ SyntaxTree.namingKinds) :
      (Item.name (s.text node.range) node.range).Named uri source node :=
    ⟨⟨.root, hkind⟩, rfl, (hs.text_eq node.range).symm⟩
  unfold atom? at hatom
  simp only at hatom
  split at hatom
  next hkind =>
    cases hatom
    unfold nameItem
    simp only
    split
    · trivial
    · split
      · trivial
      · exact hname (List.mem_cons_of_mem _ hkind)
  · split at hatom
    next hkind =>
      split at hatom
      · cases hatom
        exact hname (hkind ▸ List.mem_cons_self)
      · cases hatom
        trivial
    · split at hatom
      · cases hatom
        trivial
      · split at hatom
        · cases hatom
          trivial
        · split at hatom
          · cases hatom
            trivial
          · split at hatom
            · obtain ⟨word, -, rfl⟩ := Option.map_eq_some_iff.1 hatom
              trivial
            · split at hatom
              · cases hatom
                trivial
              · obtain ⟨type, -, rfl⟩ := Option.map_eq_some_iff.1 hatom
                trivial

/-! ## Taking up items -/

section Accept
variable {outer : SyntaxTree} {item : Item} {place : Place}
  (hitem : item.Named uri source node) (hplace : place.Fits outer node)
include hitem hplace

theorem ClassBody.named_accept {c : ClassBody} (h : (Construct.classBody c).Named source outer) :
    (Construct.classBody ((c.accept item place).run s).1.1).Named source outer := by
  unfold accept
  split
  next text range =>
    obtain ⟨hname, rfl, rfl⟩ := hitem
    split
    next hposition =>
      obtain ⟨hchild, hfield⟩ := hplace.field? (Bool.and_eq_true_iff.1 hposition).1
      rintro known ⟨⟩
      exact ⟨node, hname.mono hplace.holds, ⟨hchild, hfield⟩, s.imports.afterLast_namespaced _⟩
    · exact h
  next role names => cases role <;> exact h
  · exact h
  · split <;> exact h
  · exact h

theorem Callable.named_accept {c : Callable} (h : (Construct.callable c).Named source outer) :
    (Construct.callable ((c.accept item place).run s).1.1).Named source outer := by
  have hfragment : (Construct.callable (c.acceptFragment item place).1).Named source outer := by
    unfold acceptFragment
    split <;> exact h
  unfold accept
  split
  next text range =>
    obtain ⟨hname, rfl, rfl⟩ := hitem
    split
    next hposition =>
      obtain ⟨hchild, hfield⟩ := hplace.field? hposition
      rintro text ⟨⟩
      exact ⟨node, hname.mono hplace.holds, ⟨hchild, hfield⟩, rfl⟩
    · exact hfragment
  · split <;> exact h
  · unfold acceptParameter
    split
    · split <;> exact h
    · exact h
  · split <;> exact h
  · exact h
  · exact h
  · exact hfragment

theorem EnumCase.named_accept {e : EnumCase} (h : (Construct.enumCase e).Named source outer) :
    (Construct.enumCase (e.accept item place).1).Named source outer := by
  have hvalue : (Construct.enumCase (e.acceptValue item).1).Named source outer := by
    unfold acceptValue
    split <;> exact h
  unfold accept
  split
  next text range =>
    obtain ⟨hname, rfl, rfl⟩ := hitem
    split
    · rintro text ⟨⟩
      exact ⟨node, hname.mono hplace.holds, rfl⟩
    · exact hvalue
  · exact hvalue

theorem ElementEntry.named_accept {e : ElementEntry}
    (h : (Construct.element e).Named source outer) :
    (Construct.element (e.accept item s).1).Named source outer := by
  have hvalue : (Construct.element (e.acceptValue item s).1).Named source outer := by
    unfold acceptValue
    split
    · split <;> exact h
    · exact h
  unfold accept
  split
  next text range =>
    obtain ⟨hname, rfl, rfl⟩ := hitem
    split
    · rintro text ⟨⟩
      exact ⟨node, hname.mono hplace.holds, rfl⟩
    · exact hvalue
  · exact h
  · exact hvalue

theorem ParameterEntry.named_accept {p : ParameterEntry}
    (h : (Construct.parameter p).Named source outer) :
    (Construct.parameter ((p.accept item place).run s).1.1).Named source outer := by
  have hfragment (s : State) :
      (Construct.parameter (p.acceptFragment item place s).1).Named source outer := by
    unfold acceptFragment
    split
    · split <;> exact h
    · exact h
  unfold accept
  split
  · split <;> exact h
  · split
    · exact h
    · split <;> exact h
  · exact h
  next text range =>
    obtain ⟨hname, rfl, rfl⟩ := hitem
    split
    · rintro known ⟨⟩
      exact ⟨node, hname.mono hplace.holds, rfl, rfl⟩
    · exact hfragment s
  · exact hfragment s

theorem PropertyGroup.named_accept {g : PropertyGroup}
    (h : ∀ e ∈ g.elements, e.NamedIn source outer) :
    ∀ e ∈ (g.accept item place).1.elements, e.NamedIn source outer := by
  unfold accept
  split
  · simpa only [elements_withFlags] using h
  · simpa only [elements_withFlags] using h
  · split <;> exact h
  next e =>
    have he : e.NamedIn source node := hitem
    exact List.forall_mem_append.2 ⟨h, List.forall_mem_singleton.2 (he.mono hplace.holds)⟩
  · exact h

theorem ConstantGroup.named_accept {g : ConstantGroup}
    (h : ∀ e ∈ g.elements, e.NamedIn source outer) :
    ∀ e ∈ (g.accept item).1.elements, e.NamedIn source outer := by
  unfold accept
  split
  · simpa only [elements_withFlags] using h
  · simpa only [elements_withFlags] using h
  next e =>
    have he : e.NamedIn source node := hitem
    exact List.forall_mem_append.2 ⟨h, List.forall_mem_singleton.2 (he.mono hplace.holds)⟩
  · exact h

theorem Construct.named_accept {construct : Construct} (h : construct.Named source outer) :
    ((construct.accept item place).run s).1.1.Named source outer := by
  have huse (s : State) (name : TypeName) (range : Range) :
      (s.classReference name range).sort = .reference := rfl
  cases construct with
  | classBody c => exact ClassBody.named_accept hitem hplace h
  | enumCase e => exact EnumCase.named_accept hitem hplace h
  | callable c => exact Callable.named_accept hitem hplace h
  | parameter p => exact ParameterEntry.named_accept hitem hplace h
  | properties g => exact PropertyGroup.named_accept hitem hplace h
  | constants g => exact ConstantGroup.named_accept hitem hplace h
  | element e => exact ElementEntry.named_accept hitem hplace h
  | typeHint t => exact TypeHint.holding_accept huse h item place s
  | member m => exact MemberAccess.holding_accept huse h item place s
  | «alias» name? =>
    cases item with
    | _ => trivial
  | _ => trivial

end Accept

/-! ## Being left -/

/-- A declaration that is made at its own node. -/
theorem Item.named_symbol {x : Symbol} (hscope : ∀ scope ∈ x.scope?, scope ≠ "") {name : SyntaxTree}
    (hlocation : x.location = .of uri node.range) (hname : x.NamedBy source node name) :
    (Item.symbol x).Named uri source node :=
  ⟨hscope, node, .root, hlocation, .inl ⟨name, hname⟩⟩

/-- A declaration that is made at one of the nodes for its names. -/
theorem Element.NamedIn.symbol {e : Element} (he : e.NamedIn source node) {x : Symbol}
    (hscope : ∀ scope ∈ x.scope?, scope ≠ "") (hlocation : x.location = .of uri e.range)
    (hheaded : x.isHeaded = false)
    (hname : x.shortName = Text.afterLast '\\' (x.spelled e.name)) :
    (Item.symbol x).Named uri source node := by
  obtain ⟨at_, name, hin, hrange, hnames, htext⟩ := he
  refine ⟨hscope, at_, hin, hrange ▸ hlocation, .inl ⟨name, hnames, fun hhead => ?_, htext ▸ hname⟩⟩
  exact absurd hhead (by simp [hheaded])

theorem ElementEntry.named_finish {e : ElementEntry}
    (h : (Construct.element e).Named source node) :
    ∀ item ∈ e.finish node.range, item.Named uri source node := by
  unfold finish
  split
  next text htext =>
    obtain ⟨name, hnames, rfl⟩ := h text htext
    exact List.forall_mem_singleton.2 ⟨node, name, .root, rfl, hnames, rfl⟩
  · exact List.forall_mem_nil _

section Finish
variable (hs : s.Named uri source)
include hs

theorem ClassBody.named_finish {c : ClassBody} (h : (Construct.classBody c).Named source node) :
    ∀ item ∈ ((c.finish node.range).run s).1, item.Named uri source node := by
  simp only [finish, StateT.run_bind, StateT.run_get, StateT.run_set, pure_bind]
  split
  · exact List.forall_mem_singleton.2 trivial
  · exact List.forall_mem_nil _
  next known _ hknown =>
    obtain ⟨name, hnames, hheads, hends⟩ := h known hknown
    have hscope : ∀ scope ∈ (none : Option String), scope ≠ "" := fun _ h => by cases h
    exact List.forall_mem_singleton.2
      (Item.named_symbol hscope (hs.locate_eq node.range) ⟨hnames, fun _ => hheads, hends⟩)

theorem EnumCase.named_finish {e : EnumCase} (h : (Construct.enumCase e).Named source node) :
    ∀ item ∈ e.finish node.range s, item.Named uri source node := by
  unfold finish
  split
  next text scope htext hscope =>
    obtain ⟨name, hnames, rfl⟩ := h text htext
    refine List.forall_mem_singleton.2 (Item.named_symbol ?_ (hs.locate_eq node.range)
      ⟨hnames, nofun, rfl⟩)
    rintro owner ⟨⟩
    exact State.memberScope?_ne_empty hscope
  · exact List.forall_mem_nil _

theorem Callable.named_finish {c : Callable} (h : (Construct.callable c).Named source node) :
    ∀ item ∈ ((c.finish node.range).run s).1, item.Named uri source node := by
  have hlocate : s.closeScope.locate node.range = .of uri node.range := by
    rw [← hs.locate_eq]
    unfold State.closeScope
    split <;> rfl
  simp only [finish, StateT.run_bind, StateT.run_get, StateT.run_modify, pure_bind]
  split
  · exact List.forall_mem_singleton.2 trivial
  · exact List.forall_mem_singleton.2 trivial
  · exact List.forall_mem_nil _
  next text _ htext =>
    obtain ⟨name, hnames, hheads, rfl⟩ := h text htext
    have hscope : ∀ scope ∈ (none : Option String), scope ≠ "" := fun _ h => by cases h
    exact List.forall_mem_singleton.2 (Item.named_symbol hscope hlocate
      ⟨hnames, fun _ => hheads, Imports.afterLast_namespaced _ _⟩)
  next text _ htext =>
    obtain ⟨name, hnames, hheads, rfl⟩ := h text htext
    split
    · exact List.forall_mem_nil _
    next scope hscope =>
      refine List.forall_mem_singleton.2 (Item.named_symbol ?_ hlocate
        ⟨hnames, fun _ => hheads, rfl⟩)
      rintro owner ⟨⟩
      exact State.memberScope?_ne_empty hscope

theorem ParameterEntry.named_finish {p : ParameterEntry}
    (h : (Construct.parameter p).Named source node) :
    ∀ item ∈ p.finish s, item.Named uri source node := by
  unfold finish
  split
  · exact List.forall_mem_nil _
  next known range hknown =>
    obtain ⟨name, hnames, rfl, rfl⟩ := h _ hknown
    simp only
    split
    · exact List.forall_mem_singleton.2 trivial
    next scope hscope =>
      split
      · refine List.forall_mem_cons.2 ⟨⟨?_, name, hnames.holds, hs.locate_eq _,
          .inl ⟨name, ⟨.root, hnames.kind⟩, nofun, rfl⟩⟩, List.forall_mem_singleton.2 trivial⟩
        rintro owner ⟨⟩
        exact State.memberScope?_ne_empty hscope
      · exact List.forall_mem_singleton.2 trivial

theorem PropertyGroup.named_finish {g : PropertyGroup}
    (h : ∀ e ∈ g.elements, e.NamedIn source node) :
    ∀ item ∈ g.finish s, item.Named uri source node := by
  unfold finish
  split
  · exact List.forall_mem_nil _
  next scope hscope =>
    refine List.forall_mem_map.2 fun e he => (h e he).symbol ?_ (hs.locate_eq _) rfl rfl
    rintro owner ⟨⟩
    exact State.memberScope?_ne_empty hscope

theorem ConstantGroup.named_finish {g : ConstantGroup}
    (h : ∀ e ∈ g.elements, e.NamedIn source node) :
    ∀ item ∈ g.finish s, item.Named uri source node := by
  unfold finish
  split
  · exact List.forall_mem_nil _
  · split
    next scope hscope =>
      refine List.forall_mem_map.2 fun e he => (h e he).symbol ?_ (hs.locate_eq _) rfl rfl
      rintro owner ⟨⟩
      exact State.memberScope?_ne_empty hscope
    · exact List.forall_mem_map.2 fun e he =>
        (h e he).symbol nofun (hs.locate_eq _) rfl (s.imports.afterLast_namespaced e.name)

/-- Only the name as a whole has to be there for a constant to be declared. -/
theorem FunctionCall.quoted_of_defined? {c : FunctionCall} {range : Range} {d : ConstantDecl}
    (h : c.defined? range s = some d) :
    (Symbol.constant d).Quoted source ∧ d.location = .of uri range := by
  obtain ⟨first, quoted, -, hquoted, hname, rfl⟩ := exists_of_defined? h
  exact ⟨⟨rfl, first.valueRange, quoted, hs.text_eq _ ▸ hquoted, rfl, hname⟩, hs.locate_eq range⟩

theorem FunctionCall.named_finish (c : FunctionCall) :
    ∀ item ∈ c.finish node.range s, item.Named uri source node := by
  unfold finish
  split
  · exact List.forall_mem_singleton.2 trivial
  · split
    next d hd =>
      rw [Option.ite_none_right_eq_some] at hd
      obtain ⟨hquoted, hlocation⟩ := quoted_of_defined? hs hd.2
      exact List.forall_mem_cons.2 ⟨⟨nofun, node, .root, hlocation, .inr hquoted⟩,
        List.forall_mem_singleton.2 trivial⟩
    · refine List.forall_mem_append.2 ⟨?_, List.forall_mem_singleton.2 trivial⟩
      split
      · split
        · exact List.forall_mem_nil _
        · exact List.forall_mem_singleton.2 trivial
      · exact List.forall_mem_nil _

theorem Construct.named_finish {construct : Construct} (h : construct.Named source node) :
    ∀ item ∈ ((construct.finish node.range).run s).1, item.Named uri source node := by
  have hquiet (hholding : construct.Holding fun item => item.sort = .reference)
      (hyields : ∀ sort ∈ construct.yields, sort ∉ namingSorts) :
      ∀ item ∈ ((construct.finish node.range).run s).1, item.Named uri source node :=
    fun item hitem => Item.named_of_sort (hyields _ (sort_finish hholding _ s item hitem))
  cases construct with
  | classBody c => exact ClassBody.named_finish hs h
  | enumCase e => exact EnumCase.named_finish hs h
  | callable c => exact Callable.named_finish hs h
  | parameter p => exact ParameterEntry.named_finish hs h
  | properties g => exact PropertyGroup.named_finish hs h
  | constants g => exact ConstantGroup.named_finish hs h
  | element e => exact ElementEntry.named_finish h
  | call c =>
    change ∀ item ∈ c.finish node.range s, item.Named uri source node
    exact FunctionCall.named_finish hs c
  | _ => exact hquiet h (by simp [yields, namingSorts])

end Finish

/-! ## The walk -/

theorem Role.named_start (role : Role) (s : State) :
    ((role.start node).run s).1.Named source node := by
  have hnone {α : Type} (p : α → Prop) : ∀ a ∈ (none : Option α), p a := fun _ h => by cases h
  cases role with
  | classBody sort? => exact hnone _
  | callable sort => exact hnone _
  | enumCase => exact hnone _
  | element => exact hnone _
  | parameter promoted variadic => exact hnone _
  | properties => exact List.forall_mem_nil _
  | constants => exact List.forall_mem_nil _
  | typeHint nullable => exact List.forall_mem_nil _
  | member kind => exact hnone _
  | _ => trivial

theorem Construct.named_withDoc {construct next : Construct} {doc : DocComment}
    (hdoc : construct.withDoc doc = some next) (h : construct.Named source node) :
    next.Named source node := by
  cases construct <;> simp only [withDoc, Option.some.injEq, reduceCtorEq] at hdoc <;>
    subst hdoc <;> exact h

theorem lawful_named (uri source : String) (root : SyntaxTree) :
    (named uri source).Lawful uri source root where
  atom hs hatom := State.Named.atom hs hatom
  token _ _ _ := trivial
  start _ _ s := Role.named_start _ s
  withDoc hdoc h := Construct.named_withDoc hdoc h
  accept h hitem hplace _ := Construct.named_accept hitem hplace h
  finish h hs := Construct.named_finish hs h
  empty := trivial
  setNamespace _ _ := trivial
  addImport _ _ _ _ := trivial

end Extract

/-- Every member belongs to a class with a name. Every declaration is made at a node of the tree,
under the name that stands there. -/
theorem Extraction.named_ofTree {uri source : String} {root : SyntaxTree} {x : Symbol}
    (hx : x ∈ (ofTree uri source root).symbols) :
    (∀ scope ∈ x.scope?, scope ≠ "") ∧ x.NamedIn uri source root := by
  obtain ⟨outer, houter, hscope, node, hnode, hnamed⟩ :=
    Extract.Tracking.symbol_ofTree (Extract.lawful_named uri source root) hx
  exact ⟨hscope, node, houter.trans hnode, hnamed⟩

theorem Extraction.named_property :
    let source := "<?php namespace N; class A \x7b var $b; \x7d"
    let tree : SyntaxTree := .node "program" none ⟨0, 38⟩
      [.node "php_tag" none ⟨0, 5⟩ [],
       .node "namespace_definition" none ⟨6, 18⟩
        [.node "namespace" none ⟨6, 15⟩ [],
         .node "namespace_name" (some "name") ⟨16, 17⟩ [.node "name" none ⟨16, 17⟩ []],
         .node ";" none ⟨17, 18⟩ []],
       .node "class_declaration" none ⟨19, 38⟩
        [.node "class" none ⟨19, 24⟩ [],
         .node "name" (some "name") ⟨25, 26⟩ [],
         .node "declaration_list" (some "body") ⟨27, 38⟩
          [.node "\x7b" none ⟨27, 28⟩ [],
           .node "property_declaration" none ⟨29, 36⟩
            [.node "var_modifier" none ⟨29, 32⟩ [.node "var" none ⟨29, 32⟩ []],
             .node "property_element" none ⟨33, 35⟩
              [.node "variable_name" (some "name") ⟨33, 35⟩
                [.node "$" none ⟨33, 34⟩ [], .node "name" none ⟨34, 35⟩ []]],
             .node ";" none ⟨35, 36⟩ []],
           .node "\x7d" none ⟨37, 38⟩ []]]]
    let property : Symbol := .property
      { name := "b", scope := "N\\A", location := .of "a.php" ⟨33, 35⟩, modifiers := {},
        visibility := { isPublic := true }, types := .empty, description? := none }
    property ∈ (ofTree "a.php" source tree).symbols ∧
      (∀ scope ∈ property.scope?, scope ≠ "") ∧ property.NamedIn "a.php" source tree := by
  intro source tree property
  have hproperty : property ∈ (ofTree "a.php" source tree).symbols := by decide +kernel
  exact ⟨hproperty, named_ofTree hproperty⟩

/-- A constant whose quoted name ends in a separator has none left as its last segment, and a
property has none at all where its name is missing. -/
theorem Extraction.nameless :
    let quoted := "<?php define('A\\\\', 1);"
    let call : SyntaxTree := .node "program" none ⟨0, 23⟩
      [.node "php_tag" none ⟨0, 5⟩ [],
       .node "expression_statement" none ⟨6, 23⟩
        [.node "function_call_expression" none ⟨6, 22⟩
          [.node "name" (some "function") ⟨6, 12⟩ [],
           .node "arguments" (some "arguments") ⟨12, 22⟩
            [.node "(" none ⟨12, 13⟩ [],
             .node "argument" none ⟨13, 18⟩
              [.node "string" none ⟨13, 18⟩
                [.node "'" none ⟨13, 14⟩ [],
                 .node "string_content" none ⟨14, 15⟩ [],
                 .node "escape_sequence" none ⟨15, 17⟩ [],
                 .node "'" none ⟨17, 18⟩ []]],
             .node "," none ⟨18, 19⟩ [],
             .node "argument" none ⟨20, 21⟩ [.node "integer" none ⟨20, 21⟩ []],
             .node ")" none ⟨21, 22⟩ []]],
         .node ";" none ⟨22, 23⟩ []]]
    let broken := "<?php class A \x7b public $; \x7d"
    let body : SyntaxTree := .node "program" none ⟨0, 27⟩
      [.node "php_tag" none ⟨0, 5⟩ [],
       .node "class_declaration" none ⟨6, 27⟩
        [.node "class" none ⟨6, 11⟩ [],
         .node "name" (some "name") ⟨12, 13⟩ [],
         .node "declaration_list" (some "body") ⟨14, 27⟩
          [.node "\x7b" none ⟨14, 15⟩ [],
           .node "property_declaration" none ⟨16, 25⟩
            [.node "visibility_modifier" none ⟨16, 22⟩ [.node "public" none ⟨16, 22⟩ []],
             .node "property_element" none ⟨23, 24⟩
              [.node "variable_name" (some "name") ⟨23, 24⟩
                [.node "$" none ⟨23, 24⟩ [], .node "name" none ⟨24, 24⟩ []]],
             .node ";" none ⟨24, 25⟩ []],
           .node "\x7d" none ⟨26, 27⟩ []]]]
    (ofTree "file:///test.php" quoted call).symbols.map Symbol.shortName = [""] ∧
      (ofTree "file:///test.php" broken body).symbols.map Symbol.shortName = ["", "A"] := by
  decide +kernel

end PhpIndex
