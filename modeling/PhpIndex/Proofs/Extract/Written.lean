import PhpIndex.Proofs.Extract.Recording
import PhpIndex.Proofs.Extract.Tracking
import PhpIndex.Proofs.Name.LastSegment

/-!
# Names as they are written

The types of a reference to a class, a function or a constant are one name, which was made absolute
from the text at the place of the reference. It ends in the last segment of that text, except where
an alias, a word for the class around or another spelling of a built-in type is written. Such a name
is taken up as it is spelled, with the place where it stands, and both stay together until the
reference is recorded.
Main statement: `written_ofTree`.
-/
namespace PhpIndex

namespace SyntaxTree

/-- The kinds of nodes that import one name. -/
def useClauseKinds : List String := ["namespace_use_clause", "namespace_use_group_clause"]

/-- The kinds of nodes whose text is a type that need not be one name. -/
def typeKinds : List String :=
  ["cast_type", "named_type", "union_type", "intersection_type", "disjunctive_normal_form_type",
   "type_list", "optional_type"]

/-- Whether an object is created by the name of a class, where one is written. -/
def CreatesNamed (node : SyntaxTree) : Prop :=
  node.kind = "object_creation_expression" → ∀ child ∈ node.children, child.kind ∉ typeKinds

instance : DecidablePred CreatesNamed := fun node =>
  inferInstanceAs (Decidable (node.kind = _ → ∀ child ∈ node.children, child.kind ∉ typeKinds))

/-- Whether something in an import clause tells of an alias: the part that is one, a clause of its
own, or the keyword in front. -/
def TellsAlias (source : String) (clause : SyntaxTree) : Prop :=
  ∃ node, clause.Holds node ∧ (node.field? = some "alias" ∨
    node.kind = "namespace_aliasing_clause" ∨ Text.lowerAscii (node.range.text source) = "as")

/-- Whether the word is written in an import that has an alias. -/
def Aliased (root : SyntaxTree) (source word : String) : Prop :=
  ∃ clause name, root.Holds clause ∧ clause.kind ∈ useClauseKinds ∧ clause.TellsAlias source ∧
    clause.Holds name ∧ name.range.text source = word

end SyntaxTree

/-- Whether the name ends as it is written, if this is not a spelling of a built-in type. A name of
one segment is free to be an alias, or a word for the class around. -/
def TypeName.KeepsEnd (root : SyntaxTree) (source written : String) (t : TypeName) : Prop :=
  Text.trimBlank written = written → canonicalBuiltin? (Text.afterLast '\\' written) = none →
    ('\\' ∉ written.toList → ¬ root.Aliased source written ∧
      Extract.State.isRelative (Text.lowerAscii written) = false) →
    t.shortName = Text.afterLast '\\' written

namespace Extract
variable {uri source : String} {root node : SyntaxTree} {s : State}

theorem Role.of_ofKind? {kind : String} {role : Role} (h : Role.ofKind? kind = some role)
    {P : String → Role → Prop} (hall : ∀ entry ∈ Role.table, P entry.1 entry.2) : P kind role :=
  hall (kind, role) (Role.mem_table h)

/-! ## Resolving names -/

/-- Whether a name with another meaning than one that ends in it is an alias in the document. -/
def Explained (root : SyntaxTree) (source : String) (imports : Imports) : Prop :=
  ∀ kind word target, (imports.aliases kind).get? word = some target →
    Text.afterLast '\\' target = word ∨ root.Aliased source word

theorem Explained.keeps {imports : Imports} (h : Explained root source imports)
    (kind : ImportKind) {word : String}
    (hword : '\\' ∉ word.toList → ¬ root.Aliased source word) : imports.Keeps kind word :=
  fun hone target hget => (h kind word target hget).resolve_right (hword hone)

theorem keepsEnd_absoluteName {imports : Imports} (h : Explained root source imports)
    (kind : ImportKind) (written : String) :
    (TypeName.ofAbsolute (imports.absoluteName written kind)).KeepsEnd root source written := by
  intro _ hbuiltin hword
  have hends := Imports.afterLast_absoluteName (h.keeps kind fun hone => (hword hone).1)
  rw [← hends]
  exact TypeName.shortName_ofAbsolute (hends ▸ hbuiltin)

theorem keepsEnd_resolveClass (h : Explained root source s.imports) (written : String) :
    (s.resolveClass written).KeepsEnd root source written := by
  intro hblank hbuiltin hword
  unfold State.resolveClass
  simp only [hblank]
  split
  next hrelative =>
    have hone : '\\' ∉ written.toList := fun hmem => by
      have hwords : ∀ word ∈ ["self", "static", "parent"], '\\' ∉ word.toList := by decide
      refine hwords _ hrelative ?_
      rw [Text.lowerAscii, String.toList_ofList]
      exact List.mem_map.2 ⟨'\\', hmem, rfl⟩
    have hplain := (hword hone).2
    rw [State.isRelative, decide_eq_false_iff_not] at hplain
    exact absurd hrelative hplain
  · exact TypeName.shortName_resolve hblank hbuiltin (h.keeps .class fun hone => (hword hone).1)

/-- A name that was resolved stays the same when it is known to be absolute. -/
theorem keepsEnd_ofAbsolute {t : TypeName} {written : String}
    (h : t.KeepsEnd root source written) :
    (TypeName.ofAbsolute t.name).KeepsEnd root source written := by
  intro hblank hbuiltin hword
  have hends : Text.afterLast '\\' t.name = Text.afterLast '\\' written := h hblank hbuiltin hword
  rw [← hends]
  exact TypeName.shortName_ofAbsolute (hends ▸ hbuiltin)

theorem keepsEnd_ofSource (written : String) :
    (TypeName.ofSource written).KeepsEnd root source written :=
  fun hblank hbuiltin _ => TypeName.shortName_ofSource hblank hbuiltin

/-! ## Items -/

/-- The kinds of references to what is found by its name alone. -/
def namedKinds : List ReferenceKind := [.className, .newOperand, .function, .constantAccess]

/-- Whether the types of such a reference are one name, that of its place. What is created need not
be a name, and an import without one is of nothing. -/
def IsWritten (uri source : String) (root node : SyntaxTree) (r : Reference) : Prop :=
  r.kind ∈ namedKinds → ∃ range t, r.location = .of uri range ∧ r.types = .single t ∧
    (t.KeepsEnd root source (range.text source) ∨ t.shortName = "" ∨ ¬ node.CreatesNamed)

def UseClause.IsWritten (root : SyntaxTree) (source : String) (c : UseClause) : Prop :=
  (c.name = "" ∨ c.name = c.range.text source) ∧ ∀ word ∈ c.alias?, root.Aliased source word

/-- What an item tells of the text at its node. -/
def Item.IsWritten (uri source : String) (root node : SyntaxTree) : Item → Prop
  | .token text => Text.lowerAscii text = "as" →
      Text.lowerAscii (node.range.text source) = "as"
  | .name text range => range = node.range ∧ text = range.text source
  | .type types range =>
    (∀ t ∈ types.first?, t.KeepsEnd root source (range.text source)) ∨
      node.kind ∈ SyntaxTree.typeKinds
  | .useClause c => c.IsWritten root source
  | .alias word => node.kind = "namespace_aliasing_clause" ∧
      ∃ name, node.Holds name ∧ name.range.text source = word
  | .reference r _ => Extract.IsWritten uri source root node r
  | _ => True

/-- What a construct keeps of the text at its node. -/
def Construct.IsWritten (uri source : String) (root node : SyntaxTree) : Construct → Prop
  | .useStatement u => ∀ c ∈ u.clauses, c.IsWritten root source
  | .useName u => root.Holds node ∧ node.kind ∈ SyntaxTree.useClauseKinds ∧
      (∀ n ∈ u.name?, n.1 = n.2.text source) ∧ (u.afterAs → node.TellsAlias source) ∧
      ∀ word ∈ u.alias?, root.Aliased source word
  | .alias name? => node.kind = "namespace_aliasing_clause" ∧
      ∀ word ∈ name?, ∃ name, node.Holds name ∧ name.range.text source = word
  | .nameList l => ∀ n ∈ l.names,
      (TypeName.ofAbsolute n.1).KeepsEnd root source (n.2.text source)
  | .typeHint h => node.kind ∈ SyntaxTree.typeKinds ∧
      ∀ item ∈ h.references, item.IsWritten uri source root node
  | .call c => ∀ n ∈ c.callee?, n.1 = n.2.text source
  | .creation c => node.kind = "object_creation_expression" ∧
      ∀ n ∈ c.class?, n.1.KeepsEnd root source (n.2.text source) ∨ ¬ node.CreatesNamed
  | .member m => m.kind ∉ namedKinds ∧
      ∀ item ∈ m.scopeReference?, item.IsWritten uri source root node
  | _ => True

def written (uri source : String) (root : SyntaxTree) : Tracking where
  item := Item.IsWritten uri source root
  construct := Construct.IsWritten uri source root
  imports := Explained root source

/-- Whether the state is one of a reading of the document in which all aliases are written. -/
abbrev State.Written (uri source : String) (root : SyntaxTree) (s : State) : Prop :=
  s.Reads uri source (Explained root source)

namespace State.Written
variable (hs : s.Written uri source root)
include hs

theorem reference {kind : ReferenceKind} {range : Range} {t : TypeName}
    (ht : t.KeepsEnd root source (range.text source)) (value : TypeUnion) :
    (Item.reference { kind, types := .single t, location := s.locate range } value).IsWritten
      uri source root node :=
  fun _ => ⟨range, t, by rw [State.locate, hs.uri], rfl, .inl ht⟩

theorem classReference {name : TypeName} {range : Range}
    (hname : name.KeepsEnd root source (range.text source)) :
    (s.classReference name range).IsWritten uri source root node := reference hs hname _

theorem resolveClass {text : String} {range : Range} (htext : text = range.text source) :
    (s.resolveClass text).KeepsEnd root source (range.text source) := by
  rw [htext]
  exact keepsEnd_resolveClass hs.imports _

theorem nameItem (surroundings : Surroundings) :
    (nameItem surroundings node.field? node.range s).IsWritten uri source root node := by
  have htext := hs.text_eq node.range
  unfold Extract.nameItem
  simp only
  split
  · exact classReference hs (resolveClass hs htext)
  · split
    · rw [htext]
      exact reference hs (keepsEnd_absoluteName hs.imports .constant _) _
    · exact ⟨rfl, htext⟩

theorem atom {surroundings : Surroundings} {item : Item}
    (hatom : atom? node.kind node.field? node.range surroundings s = some item) :
    item.IsWritten uri source root node := by
  have htext := hs.text_eq node.range
  have htype {t : TypeName} (ht : t.KeepsEnd root source (node.range.text source)) :
      (Item.type (.single t) node.range).IsWritten uri source root node := by
    refine .inl fun t' ht' => ?_
    cases ht'
    exact ht
  unfold atom? at hatom
  simp only at hatom
  split at hatom
  · cases hatom
    exact nameItem hs surroundings
  · split at hatom
    · split at hatom
      · cases hatom
        exact ⟨rfl, htext⟩
      · cases hatom
        intro hkind
        simp [namedKinds] at hkind
    · split at hatom
      · cases hatom
        rw [htext]
        exact htype (keepsEnd_ofSource _)
      · split at hatom
        next hcast =>
          cases hatom
          refine .inr ?_
          rw [hcast]
          decide
        · split at hatom
          · cases hatom
            exact htype (resolveClass hs htext)
          · split at hatom
            · obtain ⟨word, -, rfl⟩ := Option.map_eq_some_iff.1 hatom
              trivial
            · split at hatom
              · cases hatom
                intro has
                exact absurd has (by decide)
              · obtain ⟨type, -, rfl⟩ := Option.map_eq_some_iff.1 hatom
                trivial

end State.Written

/-! ## Taking up items -/

section Accept
variable {outer : SyntaxTree} {item : Item} {place : Place}
  (hitem : item.IsWritten uri source root node)
include hitem

theorem UseStatement.isWritten_accept {u : UseStatement}
    (h : ∀ c ∈ u.clauses, c.IsWritten root source) :
    ∀ c ∈ (u.accept item).1.clauses, c.IsWritten root source := by
  unfold accept
  split
  · split <;> exact h
  · exact h
  · exact List.forall_mem_append.2 ⟨h, List.forall_mem_singleton.2 hitem⟩
  · exact h

theorem UseName.isWritten_accept (hplace : place.Fits outer node) {u : UseName}
    (h : (Construct.useName u).IsWritten uri source root outer) :
    (Construct.useName (u.accept item place).1).IsWritten uri source root outer := by
  obtain ⟨houter, hkind, hname, hafter, halias⟩ := h
  have haliased (htells : outer.TellsAlias source) {name : SyntaxTree} (hin : outer.Holds name)
      {word : String} (hword : name.range.text source = word) : root.Aliased source word :=
    ⟨outer, name, houter, hkind, htells, hin, hword⟩
  unfold accept
  split
  · split
    next text has =>
      exact ⟨houter, hkind, hname, fun _ => ⟨node, hplace.holds, .inr (.inr (hitem has))⟩, halias⟩
    · split <;> exact ⟨houter, hkind, hname, hafter, halias⟩
  next text range =>
    obtain ⟨hrange, htext⟩ := hitem
    split
    next hposition =>
      refine ⟨houter, hkind, hname, hafter, ?_⟩
      rintro word ⟨⟩
      refine haliased ?_ hplace.holds (hrange ▸ htext.symm)
      rcases Bool.or_eq_true_iff.1 hposition with hfield | has
      · exact ⟨node, hplace.holds, .inl (hplace.field? hfield).2⟩
      · exact hafter has
    · split
      · refine ⟨houter, hkind, ?_, hafter, halias⟩
        rintro n ⟨⟩
        exact htext
      · exact ⟨houter, hkind, hname, hafter, halias⟩
  next word =>
    obtain ⟨hclause, name, hin, hword⟩ := hitem
    refine ⟨houter, hkind, hname, hafter, ?_⟩
    rintro word ⟨⟩
    exact haliased ⟨node, hplace.holds, .inr (.inl hclause)⟩ (hplace.holds.trans hin) hword
  · exact ⟨houter, hkind, hname, hafter, halias⟩

theorem NameList.isWritten_accept (hs : s.Written uri source root) {l : NameList}
    (h : ∀ n ∈ l.names, (TypeName.ofAbsolute n.1).KeepsEnd root source (n.2.text source)) :
    ∀ n ∈ (l.accept item place s).1.names,
      (TypeName.ofAbsolute n.1).KeepsEnd root source (n.2.text source) := by
  unfold accept
  split
  next text range =>
    have hname : (TypeName.ofAbsolute (s.resolveClass text).name).KeepsEnd root source
        (range.text source) := keepsEnd_ofAbsolute (hs.resolveClass hitem.2)
    generalize (s.resolveClass text).name = name at hname
    split
    · exact List.forall_mem_append.2 ⟨h, List.forall_mem_singleton.2 hname⟩
    · exact h
  · exact h

theorem TypeHint.isWritten_accept (hs : s.Written uri source root) {h : TypeHint}
    (hrefs : ∀ item ∈ h.references, item.IsWritten uri source root outer) :
    ∀ item' ∈ (h.accept item place s).1.references, item'.IsWritten uri source root outer := by
  unfold accept
  split
  · split
    · exact List.forall_mem_append.2 ⟨hrefs, List.forall_mem_singleton.2
        (hs.classReference (hs.resolveClass hitem.2))⟩
    · exact hrefs
  · exact hrefs
  · split <;> exact hrefs
  · exact hrefs

theorem FunctionCall.isWritten_accept {c : FunctionCall}
    (h : ∀ n ∈ c.callee?, n.1 = n.2.text source) :
    ∀ n ∈ (c.accept item place).1.callee?, n.1 = n.2.text source := by
  unfold accept
  split
  · split
    · rintro n ⟨⟩
      exact hitem.2
    · exact h
  · exact h
  · exact h

theorem Creation.isWritten_accept (hplace : place.Fits outer node)
    (hs : s.Written uri source root) {c : Creation}
    (h : (Construct.creation c).IsWritten uri source root outer) :
    (Construct.creation (c.accept item place s).1).IsWritten uri source root outer := by
  obtain ⟨hkind, hclass⟩ := h
  unfold accept
  split
  · exact ⟨hkind, hclass⟩
  next text range =>
    have hname : (s.resolveClass text).KeepsEnd root source (range.text source) :=
      hs.resolveClass hitem.2
    generalize s.resolveClass text = name at hname
    split
    · refine ⟨hkind, ?_⟩
      rintro n ⟨⟩
      exact .inl hname
    · exact ⟨hkind, hclass⟩
  next types range =>
    split
    next hchild =>
      refine ⟨hkind, fun n hn => ?_⟩
      obtain ⟨t, ht, rfl⟩ := Option.map_eq_some_iff.1 hn
      refine hitem.imp (fun hkeeps => hkeeps t ht) fun htype hcreates => ?_
      have hmem := hplace.mem_children (Bool.and_eq_true_iff.1 hchild).1
      exact hcreates hkind node hmem htype
    · exact ⟨hkind, hclass⟩
  · split <;> exact ⟨hkind, hclass⟩
  · exact ⟨hkind, hclass⟩
  · exact ⟨hkind, hclass⟩

theorem MemberAccess.isWritten_accept (hs : s.Written uri source root) {m : MemberAccess}
    (h : (Construct.member m).IsWritten uri source root outer) :
    (Construct.member (m.accept item place s).1).IsWritten uri source root outer := by
  obtain ⟨hkind, hscope⟩ := h
  have hacceptScope :
      (Construct.member (m.acceptScope item s)).IsWritten uri source root outer := by
    unfold acceptScope
    split
    · refine ⟨hkind, ?_⟩
      rintro item ⟨⟩
      exact hs.classReference (hs.resolveClass hitem.2)
    · split <;> exact ⟨hkind, hscope⟩
    · exact ⟨hkind, hscope⟩
    · exact ⟨hkind, hscope⟩
    · exact ⟨hkind, hscope⟩
  have hother :
      (Construct.member (m.acceptOther item place s).1).IsWritten uri source root outer := by
    unfold acceptOther
    split
    · exact ⟨hkind, hscope⟩
    · split
      · exact hacceptScope
      · exact ⟨hkind, hscope⟩
  unfold accept
  split
  · exact ⟨hkind, hscope⟩
  · split
    · exact ⟨hkind, hscope⟩
    · exact hother
  · exact hother

theorem Construct.isWritten_accept (hplace : place.Fits outer node)
    (hs : s.Written uri source root) {construct : Construct}
    (h : construct.IsWritten uri source root outer) :
    ((construct.accept item place).run s).1.1.IsWritten uri source root outer := by
  cases construct with
  | useStatement u => exact UseStatement.isWritten_accept hitem h
  | useName u => exact UseName.isWritten_accept hitem hplace h
  | «alias» name? =>
    obtain ⟨hkind, hname⟩ := h
    cases item with
    | name text range =>
      refine ⟨hkind, ?_⟩
      rintro word ⟨⟩
      exact ⟨node, hplace.holds, hitem.1 ▸ hitem.2.symm⟩
    | _ => exact ⟨hkind, hname⟩
  | nameList l => exact NameList.isWritten_accept hitem hs h
  | typeHint t => exact ⟨h.1, TypeHint.isWritten_accept hitem hs h.2⟩
  | call c => exact FunctionCall.isWritten_accept hitem h
  | creation c => exact Creation.isWritten_accept hitem hplace hs h
  | member m => exact MemberAccess.isWritten_accept hitem hs h
  | _ => trivial

end Accept

/-! ## Being left -/

/-- The sorts of items that tell how a name is written. -/
def writingSorts : List ItemSort := [.token, .name, .type, .useClause, .alias, .reference]

theorem Item.isWritten_of_sort {item : Item} (h : item.sort ∉ writingSorts) :
    item.IsWritten uri source root node := by
  cases item with
  | token text => simp [sort, writingSorts] at h
  | name text range => simp [sort, writingSorts] at h
  | type types range => simp [sort, writingSorts] at h
  | useClause c => simp [sort, writingSorts] at h
  | «alias» name => simp [sort, writingSorts] at h
  | reference r value => simp [sort, writingSorts] at h
  | _ => trivial

theorem isWritten_reference {r : Reference} (h : r.kind ∉ namedKinds) (value : TypeUnion) :
    (Item.reference r value).IsWritten uri source root node := fun hkind => absurd hkind h

theorem isWritten_argumentReference (callee : TypeUnion) (scope? : Option TypeUnion)
    (l : ArgumentList) (s : State) :
    (argumentReference callee scope? l s).IsWritten uri source root node := by
  have hkind : ReferenceKind.argumentList ∉ namedKinds := by decide
  exact isWritten_reference hkind _

theorem Reference.kind_withScope (r : Reference) (scope : TypeUnion) :
    (r.withScope scope).kind = r.kind := by
  unfold Reference.withScope
  split <;> rfl

/-- A clause without a name imports nothing, or only what the names of its group share. -/
theorem UseStatement.target_keeps {u : UseStatement} {c : UseClause}
    (h : c.IsWritten root source) :
    (TypeName.ofAbsolute (u.target c)).KeepsEnd root source (c.range.text source) ∨
      (TypeName.ofAbsolute (u.target c)).shortName = "" := by
  have hends : Text.afterLast '\\' (u.target c) = Text.afterLast '\\' c.name := by
    unfold target
    simp only
    split
    · rw [Text.afterLast_append_separator, Imports.afterLast_trimLead]
    · exact Imports.afterLast_trimLead c.name
  have hbuiltin : canonicalBuiltin? "" = none := by decide
  have hempty : Text.afterLast '\\' "" = "" := rfl
  rcases h.1 with hname | hname
  · rw [hname, hempty] at hends
    exact .inr ((TypeName.shortName_ofAbsolute (hends ▸ hbuiltin)).trans hends)
  · refine .inl fun _ hplain _ => ?_
    rw [← hname, ← hends] at hplain ⊢
    exact TypeName.shortName_ofAbsolute hplain

theorem UseStatement.isWritten_finish (hs : s.Written uri source root) {u : UseStatement}
    (h : ∀ c ∈ u.clauses, c.IsWritten root source) :
    ∀ item ∈ (u.finish.run s).1, item.IsWritten uri source root node := by
  have hclauses {clauses : List UseClause} (h : ∀ c ∈ clauses, c.IsWritten root source)
      {s : State} (hs : s.uri = uri) :
      ∀ item ∈ ((clauses.mapM u.register).run s).1, item.IsWritten uri source root node := by
    induction clauses generalizing s with
    | nil => exact List.forall_mem_nil _
    | cons c rest ih =>
      obtain ⟨hc, hrest⟩ := List.forall_mem_cons.1 h
      rw [List.mapM_cons]
      refine List.forall_mem_cons.2 ⟨fun _ => ⟨c.range, _, ?_, rfl, ?_⟩,
        ih hrest (s := ((u.register c).run s).2) hs⟩
      · exact congrArg (Location.of · c.range) hs
      · rw [← or_assoc]
        exact .inl (UseStatement.target_keeps hc)
  exact hclauses h hs.uri

theorem UseName.isWritten_finish {u : UseName}
    (h : (Construct.useName u).IsWritten uri source root node) :
    ∀ item ∈ u.finish node.range, item.IsWritten uri source root node := by
  obtain ⟨-, -, hname, -, halias⟩ := h
  unfold finish
  split
  next name range hsome =>
    refine List.forall_mem_singleton.2 ⟨?_, halias⟩
    have htext : name = range.text source := hname _ hsome
    by_cases hempty : range.isEmpty = true
    · exact .inl (htext.trans (range.text_of_isEmpty hempty source))
    · refine .inr (htext.trans ?_)
      simp only [if_neg hempty]
  · exact List.forall_mem_nil _

theorem FunctionCall.isWritten_finish (hs : s.Written uri source root) {c : FunctionCall}
    (h : ∀ n ∈ c.callee?, n.1 = n.2.text source) (range : Range) :
    ∀ item ∈ c.finish range s, item.IsWritten uri source root node := by
  have hplain {name : String} {callee : Range} (hname : name = callee.text source) :
      ∀ item ∈ c.plain name callee s, item.IsWritten uri source root node := by
    refine List.forall_mem_append.2 ⟨?_, List.forall_mem_singleton.2 ?_⟩
    · split
      · split
        · exact List.forall_mem_nil _
        · exact List.forall_mem_singleton.2 (isWritten_argumentReference _ _ _ s)
      · exact List.forall_mem_nil _
    · rw [hname]
      exact hs.reference (keepsEnd_absoluteName hs.imports .function _) _
  unfold finish
  split
  · exact List.forall_mem_singleton.2 trivial
  next name callee hsome =>
    split
    · exact List.forall_mem_cons.2 ⟨trivial, List.forall_mem_singleton.2 trivial⟩
    · exact hplain (h _ hsome)

theorem Creation.isWritten_finish (hs : s.Written uri source root) {c : Creation}
    (h : (Construct.creation c).IsWritten uri source root node) (range : Range) :
    ∀ item ∈ c.finish range s, item.IsWritten uri source root node := by
  unfold finish
  split
  · exact List.forall_mem_singleton.2 trivial
  next name nameRange hsome =>
    split
    · exact List.forall_mem_singleton.2 trivial
    · refine List.forall_mem_append.2
        ⟨List.forall_mem_map.2 fun l _ => isWritten_argumentReference _ _ l s,
          List.forall_mem_singleton.2 fun _ => ⟨nameRange, name, ?_, rfl, ?_⟩⟩
      · rw [State.locate, hs.uri]
      · exact (h.2 _ hsome).imp_right .inr

theorem MemberAccess.isWritten_finish {m : MemberAccess}
    (h : (Construct.member m).IsWritten uri source root node) (range : Range) (s : State) :
    ∀ item ∈ m.finish range s, item.IsWritten uri source root node := by
  obtain ⟨hkind, hscope⟩ := h
  have hscoped : ReferenceKind.scopedAccess ∉ namedKinds := by decide
  refine List.forall_mem_append.2 ⟨fun item hitem => hscope item (Option.mem_toList.1 hitem), ?_⟩
  split
  · refine List.forall_mem_singleton.2 ?_
    unfold unnamed
    split
    · refine isWritten_reference ?_ _
      rwa [Reference.kind_withScope]
    · trivial
  · refine List.forall_mem_append.2
      ⟨List.forall_mem_map.2 fun l _ => isWritten_argumentReference _ _ l s,
        List.forall_mem_singleton.2 (isWritten_reference ?_ _)⟩
    rwa [Reference.kind_withScope]

theorem TypeHint.isWritten_finish {h : TypeHint}
    (ht : (Construct.typeHint h).IsWritten uri source root node) (range : Range) :
    ∀ item ∈ h.finish range, item.IsWritten uri source root node :=
  List.forall_mem_append.2 ⟨ht.2, List.forall_mem_singleton.2 (.inr ht.1)⟩

theorem NameList.isWritten_finish (hs : s.Written uri source root) {l : NameList}
    (h : (Construct.nameList l).IsWritten uri source root node) :
    ∀ item ∈ l.finish s, item.IsWritten uri source root node :=
  List.forall_mem_append.2 ⟨List.forall_mem_map.2 fun n hn => hs.classReference (h n hn),
    List.forall_mem_singleton.2 trivial⟩

theorem Construct.isWritten_finish (hs : s.Written uri source root) {construct : Construct}
    (h : construct.IsWritten uri source root node) :
    ∀ item ∈ ((construct.finish node.range).run s).1, item.IsWritten uri source root node := by
  have hplain (hyields : ∀ sort ∈ construct.yields, sort ∉ writingSorts) :
      ∀ item ∈ ((construct.finish node.range).run s).1, item.IsWritten uri source root node := by
    have hholding : construct.Holding fun item => item.sort = .reference :=
      holding_of_not_yields fun hmem => hyields _ hmem (by decide)
    exact fun item hitem =>
      Item.isWritten_of_sort (hyields _ (sort_finish hholding _ s item hitem))
  cases construct with
  | useStatement u => exact UseStatement.isWritten_finish hs h
  | useName u => exact UseName.isWritten_finish h
  | «alias» name? =>
    cases name? with
    | none => exact List.forall_mem_nil _
    | some name => exact List.forall_mem_singleton.2 ⟨h.1, h.2 name rfl⟩
  | nameList l => exact NameList.isWritten_finish hs h
  | typeHint t => exact TypeHint.isWritten_finish h node.range
  | call c => exact FunctionCall.isWritten_finish hs h node.range
  | creation c => exact Creation.isWritten_finish hs h node.range
  | member m => exact MemberAccess.isWritten_finish h node.range s
  | _ => exact hplain (by simp [yields, writingSorts])

/-! ## The walk -/

theorem Role.isWritten_start {role : Role} (hnode : root.Holds node)
    (hrole : Role.ofKind? node.kind = some role) (s : State) :
    ((role.start node).run s).1.IsWritten uri source root node := by
  have hnone {α : Type} (p : α → Prop) : ∀ a ∈ (none : Option α), p a := fun _ h => by cases h
  cases role with
  | useStatement => exact List.forall_mem_nil _
  | useName =>
    have hkind := Role.of_ofKind? hrole (P := fun kind role =>
      role = .useName → kind ∈ SyntaxTree.useClauseKinds) (by decide)
    exact ⟨hnode, hkind rfl, hnone _, nofun, hnone _⟩
  | «alias» =>
    have hkind := Role.of_ofKind? hrole (P := fun kind role =>
      role = .alias → kind = "namespace_aliasing_clause") (by decide)
    exact ⟨hkind rfl, hnone _⟩
  | nameList role => exact List.forall_mem_nil _
  | typeHint nullable =>
    have hkind := Role.of_ofKind? hrole (P := fun kind role =>
      (role = .typeHint false ∨ role = .typeHint true) → kind ∈ SyntaxTree.typeKinds) (by decide)
    exact ⟨hkind (by cases nullable <;> simp), List.forall_mem_nil _⟩
  | call => exact hnone _
  | creation =>
    have hkind := Role.of_ofKind? hrole (P := fun kind role =>
      role = .creation → kind = "object_creation_expression") (by decide)
    exact ⟨hkind rfl, hnone _⟩
  | member kind =>
    have hkind := Role.of_ofKind? hrole (P := fun _ role =>
      ∀ kind ∈ namedKinds, role ≠ .member kind) (by decide)
    exact ⟨fun hmem => hkind kind hmem rfl, hnone _⟩
  | _ => trivial

theorem Construct.isWritten_withDoc {construct next : Construct} {doc : DocComment}
    (hdoc : construct.withDoc doc = some next) (h : construct.IsWritten uri source root node) :
    next.IsWritten uri source root node := by
  cases construct <;> simp only [withDoc, Option.some.injEq, reduceCtorEq] at hdoc <;>
    subst hdoc <;> exact h

theorem Explained.addImport {imports : Imports} (h : Explained root source imports)
    (kind : ImportKind) (name : String) {alias? : Option String}
    (halias : ∀ word ∈ alias?, root.Aliased source word) :
    Explained root source (imports.addImport kind name alias?) := by
  intro kind' word target hget
  unfold Imports.addImport at hget
  simp only at hget
  split at hget
  · exact h kind' word target hget
  · rw [Imports.get?_withAlias] at hget
    split at hget
    next hnew =>
      cases hget
      cases halias? : alias? with
      | none =>
        rw [hnew.2, halias?]
        exact .inl rfl
      | some known =>
        rw [hnew.2, halias?]
        exact .inr (halias known halias?)
    · exact h kind' word target hget

theorem lawful_written (uri source : String) (root : SyntaxTree) :
    (written uri source root).Lawful uri source root where
  atom hs hatom := State.Written.atom hs hatom
  token node _ hs := fun has => State.Reads.text_eq hs node.range ▸ has
  start hnode hrole s := Role.isWritten_start hnode hrole s
  withDoc hdoc h := Construct.isWritten_withDoc hdoc h
  accept h hitem hplace hs := Construct.isWritten_accept hitem hplace hs h
  finish h hs := Construct.isWritten_finish hs h
  empty kind word target hget := by cases kind <;> cases hget
  setNamespace name h kind word target hget := by
    rw [Imports.aliases_setNamespace] at hget
    exact h kind word target hget
  addImport kind hu hclause h := Explained.addImport h kind _ (hu _ hclause).2

/-- A reference to what is found by its name alone stands where the name is written, and its type
ends as this does. -/
theorem written_ofTree (hcreates : ∀ node, root.Holds node → node.CreatesNamed) {r : Reference}
    (hr : r ∈ (Extraction.ofTree uri source root).references) (hkind : r.kind ∈ namedKinds) :
    ∃ range t, r.location = .of uri range ∧ r.types = .single t ∧
      (t.KeepsEnd root source (range.text source) ∨ t.shortName = "") := by
  obtain ⟨node, value, hnode, hwritten⟩ :=
    Tracking.reference_ofTree (lawful_written uri source root) hr
  obtain ⟨range, t, hlocation, htypes, hends⟩ := hwritten hkind
  refine ⟨range, t, hlocation, htypes, hends.imp_right fun h => ?_⟩
  exact h.resolve_right fun hnot => hnot (hcreates node hnode)

end Extract
end PhpIndex
