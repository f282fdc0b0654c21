import Mathlib.Data.List.DropRight
import PhpIndex.Proofs.Extract.Disciplined
import PhpIndex.Proofs.Extract.Members
import PhpIndex.Proofs.Lookup.Ancestry
import PhpIndex.Proofs.Lookup.Context
import PhpIndex.Proofs.Lookup.Listing

/-!
# Names that need no imports

A document may have several namespaces, and its imports are what the last of them left. So a name
is resolved where it stands and must not wait for its imports until it is looked up. All names that
a reading records for a lookup are absolute or variables, if the keywords for types are known where
they stand and variables that members are taken from are spelled as such.
Main statement: `definition_without_imports`.
-/
namespace PhpIndex

/-! ## Names -/

namespace Text

theorem trimBoth_trimBoth (p : Char → Bool) (s : String) :
    trimBoth p (trimBoth p s) = trimBoth p s := by
  have htwice (l : List Char) : (l.dropWhile p).dropWhile p = l.dropWhile p :=
    List.dropWhile_idempotent p l
  simp only [trimBoth, trimEnd, trimStart, String.toList_ofList]
  generalize hstart : s.toList.dropWhile p = start
  have hhead := List.head?_dropWhile_not p s.toList
  rw [hstart] at hhead
  have hprefix : (start.reverse.dropWhile p).reverse <+: start := by
    rw [← List.reverse_suffix, List.reverse_reverse]
    exact List.dropWhile_suffix p
  have hkept : (start.reverse.dropWhile p).reverse.dropWhile p =
      (start.reverse.dropWhile p).reverse := by
    cases hlist : (start.reverse.dropWhile p).reverse with
    | nil => rfl
    | cons c rest =>
      obtain ⟨more, hmore⟩ := hlist ▸ hprefix
      rw [← hmore] at hhead
      exact List.dropWhile_cons_of_neg (Bool.not_eq_true _ ▸ hhead)
  rw [hkept, List.reverse_reverse, htwice]

/-- The first character stays the first if it is not blank. -/
theorem startsWith_trimBlank {mark s : String} {c : Char} (hmark : mark.toList = [c])
    (hblank : isBlank c = false) (h : startsWith mark s = true) :
    startsWith mark (trimBlank s) = true := by
  rw [startsWith, List.isPrefixOf_iff_prefix, hmark] at h ⊢
  obtain ⟨rest, hrest⟩ := h
  have hstart : s.toList.dropWhile isBlank = c :: rest := by
    rw [← hrest, List.singleton_append, List.dropWhile_cons_of_neg (by simp [hblank])]
  rw [trimBlank, trimBoth, trimEnd, trimStart, String.toList_ofList, String.toList_ofList, hstart,
    List.reverse_cons, List.dropWhile_append]
  split
  · simp [hblank]
  · rw [List.reverse_append]
    exact List.prefix_append _ _

end Text

namespace TypeName

/-- Whether resolving changes nothing, whatever the imports are. -/
def Resolved (t : TypeName) : Prop := t.absolute = true ∨ t.isVariable = true

instance : DecidablePred Resolved := fun _ => inferInstanceAs (Decidable (_ ∨ _))

theorem resolveAs_of_resolved {t : TypeName} (h : t.Resolved) (imports : Imports)
    (kind : ImportKind) : t.resolveAs imports kind = t := if_pos (Bool.or_eq_true_iff.2 h)

theorem resolved_ofAbsolute (name : String) : (ofAbsolute name).Resolved := .inl rfl

theorem resolved_resolve (t : TypeName) (imports : Imports) : (t.resolve imports).Resolved := by
  unfold resolve resolveAs
  split
  next h => exact Bool.or_eq_true_iff.1 h
  · exact .inl rfl

theorem ofSource_of_canonicalBuiltin? {raw builtin : String}
    (h : canonicalBuiltin? (Text.trimBlank raw) = some builtin) :
    ofSource raw = ⟨builtin, true⟩ := by
  unfold ofSource
  simp only [Text.afterLead?_eq_none.2 (startsWith_of_canonicalBuiltin? h), h]

/-- Built-in types are absolute wherever they stand. -/
theorem resolved_of_isBuiltin {raw : String} (h : (ofSource raw).isBuiltin = true) :
    (ofSource raw).Resolved := by
  unfold ofSource at h ⊢
  simp only at h ⊢
  split
  · exact .inl rfl
  next hlead =>
    rw [hlead] at h
    simp only at h
    split
    · exact .inl rfl
    next hnone =>
      rw [hnone] at h
      simp only [isBuiltin, hnone] at h
      cases h

/-- A name that begins with a dollar sign is a variable. -/
theorem isVariable_ofSource {raw : String} (h : Text.startsWith "$" raw = true) :
    (ofSource raw).isVariable = true := by
  have htrim := Text.startsWith_trimBlank rfl (by decide) h
  have hlead : Text.startsWith "\\" (Text.trimBlank raw) = false := by
    refine Bool.eq_false_iff.2 fun hlead => ?_
    rw [Text.startsWith, List.isPrefixOf_iff_prefix] at htrim hlead
    obtain ⟨rest, hrest⟩ := htrim
    obtain ⟨rest', hrest'⟩ := hlead
    exact absurd (congrArg List.head? (hrest.trans hrest'.symm)) (by simp)
  unfold ofSource
  simp only [Text.afterLead?_eq_none.2 hlead]
  cases hbuiltin : canonicalBuiltin? (Text.trimBlank raw) with
  | none => exact htrim
  | some builtin =>
    rw [not_dollar_of_canonicalBuiltin? hbuiltin] at htrim
    cases htrim

end TypeName

/-! ## Lookups -/

theorem mapM_congr [Monad m] [LawfulMonad m] {f g : α → m β} {l : List α}
    (h : ∀ a ∈ l, f a = g a) : l.mapM f = l.mapM g := by
  induction l with
  | nil => rfl
  | cons a rest ih =>
    obtain ⟨ha, hrest⟩ := List.forall_mem_cons.1 h
    rw [List.mapM_cons, List.mapM_cons, ha, ih hrest]

namespace DocumentContext
variable {ctx : DocumentContext} {r : Reference}

theorem all_variableTypes {P : TypeName → Prop} (hglobals : ctx.globals.All P)
    (hscopes : ∀ x ∈ ctx.scopes, x.All P) (r : Reference) (name : String) :
    (ctx.variableTypes r name).All P := by
  have hscope : (ctx.scopeFor r).All P := by
    rw [scopeFor_eq]
    cases hfound : (r.scopeRange?.orElse fun _ => r.range?).bind (around ctx.scopes) with
    | none => exact hglobals
    | some x =>
      obtain ⟨target, -, hx⟩ := Option.bind_eq_some_iff.1 hfound
      exact hscopes x (List.mem_of_mem_filter (mem_of_leastBy hx))
  unfold variableTypes
  simp only
  split
  · exact hglobals.getD name
  · exact hscope.getD name

/-- On what classes members are looked up does not depend on imports. -/
theorem receivers_without_imports (hscope : ∀ u ∈ r.scope?, u.All TypeName.Resolved)
    (hglobals : ctx.globals.All TypeName.Resolved)
    (hscopes : ∀ x ∈ ctx.scopes, x.All TypeName.Resolved) (imports : Imports) :
    { ctx with imports := imports }.receivers r = ctx.receivers r := by
  have hresolved : ∀ t ∈ ctx.receiverTypes r, t.Resolved := by
    intro t ht
    obtain ⟨t', ht', ht⟩ := List.mem_flatMap.1 ht
    split at ht
    · exact all_variableTypes hglobals hscopes r t'.name t ht
    · obtain rfl := List.mem_singleton.1 ht
      exact TypeUnion.All.getD hscope TypeUnion.all_empty t ht'
  have htypes : { ctx with imports := imports }.receiverTypes r = ctx.receiverTypes r := rfl
  unfold receivers
  rw [htypes]
  refine congrArg List.eraseDups (List.map_congr_left fun t ht => ?_)
  have ht := hresolved t (List.mem_of_mem_filter ht)
  rw [TypeName.resolve, TypeName.resolve, TypeName.resolveAs_of_resolved ht,
    TypeName.resolveAs_of_resolved ht]

end DocumentContext

namespace SymbolSource
variable {source : SymbolSource} {ctx : DocumentContext} {r : Reference}

theorem findTopLevel_without_imports (htypes : r.types.All TypeName.Resolved) (kind : TableKind)
    (imports : Imports) : source.findTopLevel { ctx with imports := imports } r kind =
      source.findTopLevel ctx r kind := by
  have hnames : ∀ t ∈ r.types.types.filter (fun t => !(t.isBuiltin || t.isVariable)),
      source.findName { ctx with imports := imports } kind t = source.findName ctx kind t := by
    intro t ht
    have ht := htypes t (List.mem_of_mem_filter ht)
    unfold findName
    rw [TypeName.resolveAs_of_resolved ht, TypeName.resolveAs_of_resolved ht]
  unfold findTopLevel
  simp only [mapM_congr hnames]

/-- What a reference means does not depend on imports if all names in it and in the scopes around
are resolved. -/
theorem definition_of_resolved (ctx : DocumentContext) {D : Extract.Discipline}
    (hused : D.used = TypeName.Resolved) (hr : r.Typed D)
    (hglobals : ctx.globals.All TypeName.Resolved)
    (hscopes : ∀ x ∈ ctx.scopes, x.All TypeName.Resolved) (imports : Imports) :
    source.definition { ctx with imports := imports } r = source.definition ctx r := by
  obtain ⟨htypes, hscope⟩ := hr
  rw [hused] at htypes hscope
  have hreceivers := DocumentContext.receivers_without_imports hscope hglobals hscopes imports
  have hmembers (kinds : List TableKind) :
      source.findMembers { ctx with imports := imports } r kinds =
        source.findMembers ctx r kinds := by
    unfold findMembers
    rw [hreceivers]
  unfold definition
  cases hkind : r.kind with
  | function => exact findTopLevel_without_imports (htypes (.inl (by simp [hkind]))) _ imports
  | constantAccess => exact findTopLevel_without_imports (htypes (.inl (by simp [hkind]))) _ imports
  | className => exact findTopLevel_without_imports (htypes (.inl (by simp [hkind]))) _ imports
  | newOperand => exact findTopLevel_without_imports (htypes (.inl (by simp [hkind]))) _ imports
  | argumentList =>
    change source.findCallee _ r = source.findCallee ctx r
    unfold findCallee
    split
    · exact hmembers _
    next hnone =>
      refine findTopLevel_without_imports (htypes (.inr ⟨hkind, ?_⟩)) _ imports
      rwa [Option.not_isSome_iff_eq_none] at hnone
  | «variable» => rfl
  | _ => exact hmembers _

end SymbolSource

/-! ## Readings -/

namespace Extract

/-- All names are resolved. -/
def resolving : Discipline where
  type := TypeName.Resolved
  used := TypeName.Resolved
  owner _ := True
  spelled _ _ := true
  keyword text := (TypeName.ofSource text).isBuiltin
  documented _ _ := true
  accessed := Text.startsWith "$"

theorem State.resolved_resolveClass (s : State) (raw : String) : (s.resolveClass raw).Resolved := by
  have hwords : ∀ word ∈ ["self", "static", "parent"], word ∈ builtinTypes := by decide
  unfold resolveClass
  simp only
  split
  next hword =>
    split
    · exact .inl rfl
    · have htrim : Text.trimBlank (Text.trimBlank raw) = Text.trimBlank raw :=
        Text.trimBoth_trimBoth Text.isBlank raw
      have hbuiltin := TypeName.canonicalBuiltin?_of_lowerAscii rfl (hwords _ hword)
      rw [← htrim] at hbuiltin
      rw [TypeName.ofSource_of_canonicalBuiltin? hbuiltin]
      exact .inl rfl
  · exact TypeName.resolved_resolve _ s.imports

theorem State.resolved_resolveType (s : State) (t : TypeName) : (s.resolveType t).Resolved := by
  unfold resolveType
  split
  next h =>
    rcases Bool.or_eq_true_iff.1 h with h | h
    · exact .inr h
    · exact .inl (Bool.and_eq_true_iff.1 h).1
  · exact s.resolved_resolveClass t.name

theorem lawful_resolving : resolving.Lawful where
  inferred := by
    have hall : ∀ name ∈ inferredTypes, (TypeName.ofSource name).Resolved := by decide +kernel
    exact hall
  closure := TypeName.resolved_ofAbsolute "Closure"
  ofOwner name _ := TypeName.resolved_ofAbsolute name
  owner _ _ := trivial
  used _ h := h
  absolute name := TypeName.resolved_ofAbsolute name
  accessed _ h := .inr h
  keyword text h := by
    simp only [resolving] at h ⊢
    exact TypeName.resolved_of_isBuiltin h
  className _ _ _ := trivial
  target _ _ _ := trivial
  resolveClass s _ text _ _ _ := s.resolved_resolveClass text
  resolveType s t _ _ := s.resolved_resolveType t
  documented s t _ _ := s.resolved_resolveType t

end Extract

namespace SyntaxTree

/-- The text that the node covers. -/
def spelling (source : String) (tree : SyntaxTree) : String :=
  (Text.slice? source tree.range.start.toNat tree.range.stop.toNat).getD ""

/-- Whether the node, if it is a keyword for a type or the type of a cast, is a built-in type. -/
def hasKnownType (source : String) (tree : SyntaxTree) : Bool :=
  if tree.kind = "primitive_type" ∨ tree.kind = "bottom_type" then
    (TypeName.ofSource (tree.spelling source)).isBuiltin
  else if tree.kind = "cast_type" then
    (TypeName.ofSource (Extract.castTarget (tree.spelling source))).isBuiltin
  else true

/-- The kinds of nodes that take a member from something. -/
def memberKinds : List String :=
  ["member_call_expression", "nullsafe_member_call_expression", "member_access_expression",
   "nullsafe_member_access_expression", "scoped_call_expression",
   "scoped_property_access_expression", "class_constant_access_expression"]

/-- Whether variables right in the node begin with a dollar sign if members are taken there. The
grammar has no other variables: the sign is the first token of each. -/
def hasSpelledVariables (source : String) (tree : SyntaxTree) : Bool :=
  tree.kind ∉ memberKinds || tree.children.all fun child =>
    child.kind != "variable_name" || Text.startsWith "$" (child.spelling source)

end SyntaxTree

namespace Extract

def Role.isMember : Role → Bool
  | .member _ => true
  | _ => false

theorem Construct.isMember_withDoc {construct next : Construct} {doc : DocComment}
    (h : construct.withDoc doc = some next) : next.isMember = construct.isMember := by
  cases construct <;> simp only [withDoc, Option.some.injEq, reduceCtorEq] at h <;>
    subst h <;> rfl

/-- Members are taken at nodes of these kinds only. -/
theorem memberKinds_of_enter {tree : SyntaxTree} {s : State}
    (h : ((enter tree).run s).1.any Construct.isMember = true) :
    tree.kind ∈ SyntaxTree.memberKinds := by
  have htable : ∀ p ∈ Role.table, p.2.isMember = true → p.1 ∈ SyntaxTree.memberKinds := by decide
  rcases enter_cases tree s with ⟨-, hnone⟩ | ⟨role, next, hrole, hnext, heq⟩
  · rw [hnone] at h
    cases h
  · refine htable _ (Role.mem_table hrole) ?_
    rw [hnext, Option.any_some] at h
    have hstart : ((role.start tree).run s).1.isMember = true := by
      rcases heq with rfl | ⟨doc, hdoc⟩
      · exact h
      · rw [← Construct.isMember_withDoc hdoc, h]
    cases role <;> first | rfl | cases hstart

theorem source_enter (tree : SyntaxTree) (s : State) :
    ((enter tree).run s).2.source = s.source := by
  refine (congrArg Frame.source (frame_enter tree s).2).trans ?_
  cases tree.mark <;> rfl

section
variable {source : String}

/-- Whether the node may stand where a member is being taken or not. -/
def MayStand (source : String) (around : Open) (tree : SyntaxTree) : Prop :=
  around.accessing = true → tree.kind = "variable_name" →
    Text.startsWith "$" (tree.spelling source) = true

theorem admitsLeft_resolving (s : State) (around : Open) :
    admitsLeft resolving s around = true := by
  unfold admitsLeft
  split
  next construct outer => cases Open.heard? outer <;> simp [resolving]
  · rfl

theorem admitsAtom_resolving {tree : SyntaxTree} {around : Open} {s : State}
    (hsource : s.source = source) (htype : tree.hasKnownType source = true)
    (hstands : MayStand source around tree) :
    admitsAtom resolving tree.kind tree.field? (s.text tree.range) around s = true := by
  have hspelling : s.text tree.range = tree.spelling source := by
    rw [State.text, hsource, SyntaxTree.spelling]
  rw [hspelling]
  unfold SyntaxTree.hasKnownType at htype
  unfold MayStand at hstands
  unfold admitsAtom
  generalize tree.spelling source = text at *
  generalize tree.kind = kind at *
  simp only [resolving]
  split
  · rfl
  · split
    next hvariable =>
      cases haccessing : around.accessing with
      | false => rfl
      | true =>
        have hname := TypeName.isVariable_ofSource (hstands haccessing hvariable)
        rw [TypeName.isVariable] at hname
        simp [hname]
    · split
      next hkind => rwa [if_pos hkind] at htype
      next hkind =>
        split
        next hcast =>
          rw [if_neg hkind, if_pos hcast] at htype
          exact htype
        · rfl

mutual

theorem admits_resolving : (tree : SyntaxTree) → (surroundings : Surroundings) → {around : Open} →
    {s : State} → s.source = source → s.frame.contexts = around.contexts →
    tree.all (SyntaxTree.hasKnownType source) = true →
    tree.all (SyntaxTree.hasSpelledVariables source) = true → MayStand source around tree →
    admits resolving surroundings around s tree = true
  | .node kind field? range children, surroundings, around, s, hsource, hs, htypes, hvariables,
      hstands => by
    rw [SyntaxTree.all, Bool.and_eq_true] at htypes hvariables
    have hnoted : (noteComment kind range s).frame = s.frame :=
      small_frame.quiet.noteComment kind range s
    have hsource' : (noteComment kind range s).source = source :=
      (congrArg Frame.source hnoted).trans hsource
    have hs' : (noteComment kind range s).frame.contexts = around.contexts := by rw [hnoted, hs]
    unfold admits
    cases hatom : atom? kind field? range surroundings (noteComment kind range s) with
    | some item =>
      simp only [hatom]
      exact admitsAtom_resolving hsource' htypes.1 hstands
    | none =>
      cases children with
      | nil => simp only [hatom, List.isEmpty_nil, if_true]
      | cons tree rest =>
        rcases henter : (enter (.node kind field? range (tree :: rest))).run
          (noteComment kind range s) with ⟨construct?, s₁⟩
        have hsource₁ := source_enter (.node kind field? range (tree :: rest))
          (noteComment kind range s)
        have hs₁ := contexts_enter (.node kind field? range (tree :: rest)) hs'
        rw [henter] at hsource₁ hs₁
        simp only [hatom, List.isEmpty_cons, Bool.false_eq_true, if_false, henter,
          admitsLeft_resolving, Bool.and_true]
        refine admitsIn_resolving (tree :: rest) _ (hsource₁.trans hsource') hs₁ htypes.2
          hvariables.2 fun child hchild haccessing hkind => ?_
        have hmember : kind ∈ SyntaxTree.memberKinds := by
          refine @memberKinds_of_enter (.node kind field? range (tree :: rest))
            (noteComment kind range s) ?_
          rw [henter]
          exact haccessing
        have hspelled := hvariables.1
        rw [SyntaxTree.hasSpelledVariables] at hspelled
        rcases Bool.or_eq_true_iff.1 hspelled with hspelled | hspelled
        · exact absurd hmember (of_decide_eq_true hspelled)
        · have hchild := List.all_eq_true.1 hspelled child hchild
          simpa [hkind] using hchild

theorem admitsIn_resolving : (trees : List SyntaxTree) → (surroundings : Surroundings) →
    {around : Open} → {s : State} → s.source = source → s.frame.contexts = around.contexts →
    SyntaxTree.allIn (SyntaxTree.hasKnownType source) trees = true →
    SyntaxTree.allIn (SyntaxTree.hasSpelledVariables source) trees = true →
    (∀ tree ∈ trees, MayStand source around tree) →
    admitsIn resolving surroundings around s trees = true
  | [], surroundings, around, s, hsource, hs, htypes, hvariables, hstand => by
    unfold admitsIn
    rfl
  | tree :: rest, surroundings, around, s, hsource, hs, htypes, hvariables, hstand => by
    rw [SyntaxTree.allIn, Bool.and_eq_true] at htypes hvariables
    obtain ⟨hfirst, hrest⟩ := List.forall_mem_cons.1 hstand
    have hcourse := course_walk tree surroundings hs
    have hmap := lasting_isMember.map_walk tree surroundings around s
    rcases hwalk : (walk surroundings around tree).run s with ⟨next, s'⟩
    rw [hwalk] at hcourse hmap
    unfold admitsIn
    simp only [hwalk, Bool.and_eq_true]
    refine ⟨admits_resolving tree surroundings hsource hs htypes.1 hvariables.1 hfirst, ?_⟩
    have hsource' : s'.source = source := (congrArg Frame.source hcourse.frame).trans hsource
    refine admitsIn_resolving rest _ hsource' hcourse.contexts htypes.2 hvariables.2 ?_
    unfold MayStand
    rw [Open.accessing_of_map hmap]
    exact hrest

end
end

end Extract

/-- What is found in a document is looked up in the same way with any imports, and every name in
it is resolved, if the keywords for types are built-in types. -/
theorem definition_without_imports (uri source : String) {tree : SyntaxTree}
    (htypes : tree.all (SyntaxTree.hasKnownType source) = true)
    (hvariables : tree.all (SyntaxTree.hasSpelledVariables source) = true) :
    let found := Extraction.ofTree uri source tree
    (∀ r ∈ found.references, ∀ (symbols : SymbolSource) (imports imports' : Imports),
      symbols.definition ⟨uri, imports, found.globals, found.scopes⟩ r =
        symbols.definition ⟨uri, imports', found.globals, found.scopes⟩ r) ∧
    (∀ r ∈ found.references,
      (r.kind ∈ [.className, .newOperand, .function, .constantAccess] →
        r.types.All TypeName.Resolved) ∧ ∀ scope ∈ r.scope?, scope.All TypeName.Resolved) ∧
    (∀ x ∈ found.globals :: found.scopes, x.All TypeName.Resolved) ∧
    ∀ x ∈ found.symbols, ∀ t ∈ x.typeNames, t.Resolved := by
  intro found
  have hadmits : Extract.admits Extract.resolving ⟨none, none⟩ [] (.start uri source) tree = true :=
    Extract.admits_resolving tree _ rfl rfl htypes hvariables nofun
  obtain ⟨-, hstate⟩ := Extract.yields_walk Extract.lawful_resolving tree ⟨none, none⟩ hadmits
    (List.forall_mem_nil _) (Extract.State.typed_start uri source)
  have hglobals : found.globals.All TypeName.Resolved := hstate.globals
  have hscopes : ∀ x ∈ found.scopes, x.All TypeName.Resolved := hstate.finished
  refine ⟨fun r hr symbols imports imports' => ?_, fun r hr => ⟨fun hkind => ?_, ?_⟩, ?_, ?_⟩
  · let ctx : DocumentContext := ⟨uri, .empty, found.globals, found.scopes⟩
    have hlookup (imports : Imports) :
        symbols.definition { ctx with imports := imports } r = symbols.definition ctx r :=
      SymbolSource.definition_of_resolved ctx rfl (hstate.references r hr) hglobals hscopes imports
    exact (hlookup imports).trans (hlookup imports').symm
  · refine (hstate.references r hr).types (.inl ?_)
    simp only [List.mem_cons, List.not_mem_nil, or_false] at hkind ⊢
    tauto
  · exact (hstate.references r hr).scope
  · exact List.forall_mem_cons.2 ⟨hglobals, hscopes⟩
  · exact hstate.symbols

/-- A class of one namespace is bound to a variable that another one uses. -/
theorem definition_without_imports_two_namespaces :
    let source := "<?php namespace A\x7b$x=new B;\x7dnamespace C\x7b$x->f();\x7d"
    let tree : SyntaxTree := .node "program" none ⟨0, 49⟩
       [.node "php_tag" none ⟨0, 5⟩ [],
        .node "namespace_definition" none ⟨6, 28⟩
         [.node "namespace" none ⟨6, 15⟩ [],
          .node "namespace_name" (some "name") ⟨16, 17⟩
           [.node "name" none ⟨16, 17⟩ []],
          .node "compound_statement" (some "body") ⟨17, 28⟩
           [.node "\x7b" none ⟨17, 18⟩ [],
            .node "expression_statement" none ⟨18, 27⟩
             [.node "assignment_expression" none ⟨18, 26⟩
               [.node "variable_name" (some "left") ⟨18, 20⟩
                 [.node "$" none ⟨18, 19⟩ [],
                  .node "name" none ⟨19, 20⟩ []],
                .node "=" none ⟨20, 21⟩ [],
                .node "object_creation_expression" (some "right") ⟨21, 26⟩
                 [.node "new" none ⟨21, 24⟩ [],
                  .node "name" none ⟨25, 26⟩ []]],
              .node ";" none ⟨26, 27⟩ []],
            .node "\x7d" none ⟨27, 28⟩ []]],
        .node "namespace_definition" none ⟨28, 49⟩
         [.node "namespace" none ⟨28, 37⟩ [],
          .node "namespace_name" (some "name") ⟨38, 39⟩
           [.node "name" none ⟨38, 39⟩ []],
          .node "compound_statement" (some "body") ⟨39, 49⟩
           [.node "\x7b" none ⟨39, 40⟩ [],
            .node "expression_statement" none ⟨40, 48⟩
             [.node "member_call_expression" none ⟨40, 47⟩
               [.node "variable_name" (some "object") ⟨40, 42⟩
                 [.node "$" none ⟨40, 41⟩ [],
                  .node "name" none ⟨41, 42⟩ []],
                .node "->" none ⟨42, 44⟩ [],
                .node "name" (some "name") ⟨44, 45⟩ [],
                .node "arguments" (some "arguments") ⟨45, 47⟩
                 [.node "(" none ⟨45, 46⟩ [],
                  .node ")" none ⟨46, 47⟩ []]],
              .node ";" none ⟨47, 48⟩ []],
            .node "\x7d" none ⟨48, 49⟩ []]]]
    let found := Extraction.ofTree "a.php" source tree
    tree.all (SyntaxTree.hasKnownType source) = true ∧
      tree.all (SyntaxTree.hasSpelledVariables source) = true ∧
      found.references.map (fun r => (r.kind, r.types.names, r.scope?.map TypeUnion.names)) =
        [(.variable, ["$x"], none), (.newOperand, ["A\\B"], none), (.variable, ["$x"], none),
         (.argumentList, ["f"], some ["A\\B"]), (.methodCall, ["f"], some ["A\\B"])] ∧
      (∀ r ∈ found.references, ∀ (symbols : SymbolSource) (imports imports' : Imports),
        symbols.definition ⟨"a.php", imports, found.globals, found.scopes⟩ r =
          symbols.definition ⟨"a.php", imports', found.globals, found.scopes⟩ r) ∧
      (∀ r ∈ found.references, ∀ scope ∈ r.scope?, scope.All TypeName.Resolved) ∧
      (∀ x ∈ found.globals :: found.scopes, x.All TypeName.Resolved) ∧
      ∀ x ∈ found.symbols, ∀ t ∈ x.typeNames, t.Resolved := by
  intro source tree found
  have htypes : tree.all (SyntaxTree.hasKnownType source) = true := by decide
  have hvariables : tree.all (SyntaxTree.hasSpelledVariables source) = true := by decide +kernel
  obtain ⟨halike, hreferences, hscopes, hsymbols⟩ :=
    definition_without_imports "a.php" source htypes hvariables
  exact ⟨htypes, hvariables, by decide +kernel, halike, fun r hr => (hreferences r hr).2, hscopes,
    hsymbols⟩

/-- A variable without its sign is recorded like a name that is not resolved, and the imports that
the document leaves decide which class is meant by it. -/
theorem definition_with_imports :
    let source := "<?php use X\\B; B->f();"
    let tree : SyntaxTree := .node "program" none ⟨0, 22⟩
       [.node "php_tag" none ⟨0, 5⟩ [],
        .node "namespace_use_declaration" none ⟨6, 14⟩
         [.node "use" none ⟨6, 9⟩ [],
          .node "namespace_use_clause" none ⟨10, 13⟩
           [.node "qualified_name" none ⟨10, 13⟩
             [.node "namespace_name" (some "prefix") ⟨10, 11⟩
               [.node "name" none ⟨10, 11⟩ []],
              .node "\\" (some "prefix") ⟨11, 12⟩ [],
              .node "name" none ⟨12, 13⟩ []]],
          .node ";" none ⟨13, 14⟩ []],
        .node "expression_statement" none ⟨15, 22⟩
         [.node "member_call_expression" none ⟨15, 21⟩
           [.node "variable_name" (some "object") ⟨15, 16⟩ [],
            .node "->" none ⟨16, 18⟩ [],
            .node "name" (some "name") ⟨18, 19⟩ [],
            .node "arguments" (some "arguments") ⟨19, 21⟩
             [.node "(" none ⟨19, 20⟩ [],
              .node ")" none ⟨20, 21⟩ []]],
          .node ";" none ⟨21, 22⟩ []]]
    let found := Extraction.ofTree "a.php" source tree
    let method : Symbol := .method ⟨"f", "X\\B", .of "b.php" ⟨27, 44⟩, {}, {}, .empty, none⟩
    let symbols := SymbolSource.ofSymbols [method]
    let call : Reference :=
      { kind := .methodCall, types := .single (.ofSource "f"), location := .of "a.php" ⟨15, 19⟩
        scope? := some (.single (.ofSource "B")), scopeRange? := some ⟨0, 22⟩
        memberRange? := some ⟨18, 19⟩ }
    tree.all (SyntaxTree.hasKnownType source) = true ∧ call ∈ found.references ∧
      symbols.definition ⟨"a.php", found.imports, found.globals, found.scopes⟩ call =
        .ok [method] ∧
      symbols.definition ⟨"a.php", .empty, found.globals, found.scopes⟩ call = .ok [] := by
  intro source tree found method symbols call
  have hroot (owner : String) : symbols.supertypes owner = .ok [] := rfl
  have himported : DocumentContext.receivers
      ⟨"a.php", found.imports, found.globals, found.scopes⟩ call = ["X\\B"] := by decide +kernel
  have hplain : DocumentContext.receivers
      ⟨"a.php", .empty, found.globals, found.scopes⟩ call = ["B"] := by decide +kernel
  refine ⟨by decide, by decide +kernel, ?_, ?_⟩
  · change symbols.findMembers _ call [.methods] = _
    rw [SymbolSource.findMembers_of_receivers rfl himported (hroot _)]
    decide +kernel
  · change symbols.findMembers _ call [.methods] = _
    rw [SymbolSource.findMembers_of_receivers rfl hplain (hroot _)]
    decide +kernel

end PhpIndex
