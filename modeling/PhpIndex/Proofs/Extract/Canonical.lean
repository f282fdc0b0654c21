import PhpIndex.Proofs.Extract.Resolved
import PhpIndex.Proofs.Extract.Walk
import PhpIndex.Proofs.Name.Canonical
import PhpIndex.Proofs.Record.Unchanged

/-!
# Findings that storing leaves unchanged

A record keeps no more of a type name than its text, so the mark of an absolute name is read off
the text again. What is resolved keeps its mark if it is canonical. The name of a member is never
resolved: it is kept as it is spelled, and comes back with a mark if it is spelled like a built-in
type or with a separator in front.
Main statements: `findings_read_back`, `member_name_marked`.
-/
namespace PhpIndex

/-! ## Names -/

namespace TypeName

theorem fixed_iff_of_absolute {t : TypeName} (h : t.absolute = true) :
    t.Fixed ↔ Canonical t.name := by
  rw [Fixed, if_pos h, isBuiltin, Canonical, Option.isSome_eq_false_iff, Option.isNone_iff_eq_none]

theorem fixed_iff_of_relative {t : TypeName} (h : t.absolute = false) :
    t.Fixed ↔ t.name ∉ builtinTypes ∧ Text.startsWith "\\" t.name = false := by
  rw [Fixed, if_neg (by simp [h])]

theorem not_mem_builtinTypes {name : String} (h : canonicalBuiltin? name = none) :
    name ∉ builtinTypes := fun hmem => by
  rw [canonicalBuiltin?_of_mem hmem] at h
  cases h

theorem canonicalBuiltin?_of_isVariable {t : TypeName} (h : t.isVariable = true) :
    canonicalBuiltin? t.name = none := by
  refine Option.eq_none_iff_forall_ne_some.2 fun builtin hbuiltin => ?_
  rw [isVariable, not_dollar_of_canonicalBuiltin? hbuiltin] at h
  cases h

theorem fixed_iff_canonical {t : TypeName} (h : t.Resolved) : t.Fixed ↔ Canonical t.name := by
  rcases h with h | h
  · exact fixed_iff_of_absolute h
  · have hnone := canonicalBuiltin?_of_isVariable h
    cases habsolute : t.absolute with
    | true => exact fixed_iff_of_absolute habsolute
    | false =>
      have hlead := (steady_of_isVariable h).resolve_left (by simp [habsolute])
      rw [fixed_iff_of_relative habsolute]
      exact ⟨fun _ => .inl hnone, fun _ => ⟨not_mem_builtinTypes hnone, hlead⟩⟩

theorem fixed_of_ofSource {raw : String} {t : TypeName} (h : ofSource raw = t) : t.Fixed := by
  have hcases := ofSource_cases raw
  rw [h] at hcases
  rcases hcases with ⟨habsolute, hcanonical⟩ | ⟨rfl, hnone, hlead⟩
  · exact (fixed_iff_of_absolute habsolute).2 hcanonical
  · exact (fixed_iff_of_relative rfl).2 ⟨not_mem_builtinTypes hnone, hlead⟩

end TypeName

/-! ## Records -/

theorem Location.whole_of_eq {l : Location} {uri : String} {range : Range}
    (h : l = .of uri range) : l.Whole := h ▸ .inr rfl

theorem TypeUnion.all_congr {P Q : TypeName → Prop} {u : TypeUnion}
    (h : ∀ t ∈ u.types, P t ↔ Q t) : u.All P ↔ u.All Q := forall₂_congr h

theorem TypeUnion.fixed_iff {u : TypeUnion} (h : u.names.Nodup) : u.Fixed ↔ u.All TypeName.Fixed :=
  ⟨Fixed.types, fun htypes => ⟨htypes, h⟩⟩

theorem Signature.fixed_iff {s : Signature} (h : s.Tidy)
    (hlocated : ∀ p ∈ s.parameters, p.location.Whole) :
    s.Fixed ↔ ∀ t ∈ s.typeNames, t.Fixed := by
  rw [typeNames, List.forall_mem_append, List.forall_mem_flatMap]
  constructor
  · exact fun hfixed => ⟨fun p hp => (hfixed.parameters p hp).types.types, hfixed.returnTypes.types⟩
  · rintro ⟨hparameters, hreturn⟩
    exact ⟨fun p hp => ⟨⟨hparameters p hp, (h.parameters p hp).nodup⟩, hlocated p hp⟩,
      ⟨hreturn, h.returnTypes.nodup⟩⟩

namespace Symbol
variable {uri : String} {x : Symbol}

theorem Sound.fixed_iff (h : x.Sound uri) : x.Fixed ↔ ∀ t ∈ x.typeNames, t.Fixed := by
  obtain ⟨range, hlocation⟩ := h.located
  have hwhole := Location.whole_of_eq hlocation
  have hvalue {u : TypeUnion} (hu : x.valueTypes? = some u) (hnone : x.signature? = none) :
      x.Fixed ↔ u.All TypeName.Fixed := by
    have hnodup := (h.tidy.valueTypes u hu).nodup
    refine ⟨fun hfixed => (hfixed.types u hu).types, fun hfixed => ⟨hwhole, ?_, ?_⟩⟩
    · rw [hnone]
      exact nofun
    · rw [hu]
      rintro u ⟨⟩
      exact ⟨hfixed, hnodup⟩
  have hsignature {g : Signature} (hg : x.signature? = some g)
      (htypes : x.valueTypes? = some g.returnTypes) : x.Fixed ↔ ∀ t ∈ g.typeNames, t.Fixed := by
    rw [← Signature.fixed_iff (h.tidy.signature g hg) (h.parameters g hg)]
    refine ⟨fun hfixed => hfixed.signature g hg, fun hfixed => ⟨hwhole, ?_, ?_⟩⟩
    · rw [hg]
      rintro g ⟨⟩
      exact hfixed
    · rw [htypes]
      rintro u ⟨⟩
      exact hfixed.returnTypes
  cases x with
  | classLike c => exact ⟨fun _ => List.forall_mem_nil _, fun _ => ⟨hwhole, nofun, nofun⟩⟩
  | function f => exact hsignature rfl rfl
  | method m => exact hsignature rfl rfl
  | property p => exact hvalue rfl rfl
  | constant c => exact hvalue rfl rfl
  | classConstant c => exact hvalue rfl rfl
  | «variable» v => exact hvalue rfl rfl

end Symbol

theorem Symbol.Sound.fixed_iff_canonical {uri : String} {x : Symbol} (h : x.Sound uri)
    (hresolved : ∀ t ∈ x.typeNames, t.Resolved) :
    x.Fixed ↔ ∀ t ∈ x.typeNames, Canonical t.name :=
  h.fixed_iff.trans (forall₂_congr fun t ht => TypeName.fixed_iff_canonical (hresolved t ht))

theorem VariableScope.fixed_iff_canonical {s : VariableScope} (h : s.Tidy)
    (hwhole : s.location.Whole) (hresolved : s.All TypeName.Resolved) :
    s.Fixed ↔ s.All fun t => Canonical t.name := by
  have hentry {e : String × TypeUnion} (he : e ∈ s.types.entries) :
      e.2.Fixed ↔ e.2.All fun t => Canonical t.name :=
    (TypeUnion.fixed_iff (h e he).nodup).trans (TypeUnion.all_congr fun t ht =>
      TypeName.fixed_iff_canonical (hresolved e he t ht))
  exact ⟨fun hfixed e he => (hentry he).1 (hfixed.types e he),
    fun hcanonical => ⟨hwhole, fun e he => (hentry he).2 (hcanonical e he)⟩⟩

theorem ReferenceKind.mem_of_not_isMember {k : ReferenceKind} (h : k.isMember = false)
    (hvariable : k ≠ .variable) (hlist : k ≠ .argumentList) :
    k ∈ [.function, .constantAccess, .className, .newOperand] := by
  revert h hvariable hlist
  cases k <;> decide

namespace Reference
variable {uri : String} {size : Nat} {r : Reference}

theorem Sound.nodup (h : r.Sound uri size) : r.types.names.Nodup := by
  rcases h.types with htidy | ⟨name, htypes⟩
  · exact htidy.nodup
  · rw [htypes]
    exact List.pairwise_singleton _ _

theorem Sound.fixed_iff (h : r.Sound uri size) :
    r.Fixed ↔ (∀ u ∈ r.scope?, u.All TypeName.Fixed) ∧ r.types.All TypeName.Fixed := by
  constructor
  · exact fun hfixed => ⟨fun u hu => (hfixed.scope u hu).types, hfixed.types.types⟩
  · rintro ⟨hscope, htypes⟩
    obtain ⟨range, hlocation, -⟩ := h.located
    exact ⟨⟨htypes, h.nodup⟩, Location.whole_of_eq hlocation,
      fun u hu => ⟨hscope u hu, (h.scope u hu).nodup⟩⟩

/-- All references but those to members and variables name what is looked up. -/
theorem Typed.all_types {D : Extract.Discipline} (h : r.Typed D) (hmember : r.namesMember = false)
    (hvariable : r.kind ≠ .variable) : r.types.All D.used := by
  rw [namesMember, Bool.or_eq_false_iff, Bool.and_eq_false_iff] at hmember
  obtain ⟨hkind, hcall⟩ := hmember
  by_cases hlist : r.kind = .argumentList
  · exact h.types (.inr ⟨hlist, by simpa [hlist] using hcall⟩)
  · exact h.types (.inl (ReferenceKind.mem_of_not_isMember hkind hvariable hlist))

theorem Sound.fixed_iff_canonical (h : r.Sound uri size) (hr : r.Typed Extract.resolving) :
    r.Fixed ↔ (∀ scope ∈ r.scope?, scope.All fun t => Canonical t.name) ∧
      if r.namesMember then
        r.types.All fun t => t.name ∉ builtinTypes ∧ Text.startsWith "\\" t.name = false
      else r.types.All fun t => Canonical t.name := by
  rw [h.fixed_iff]
  refine and_congr ?_ ?_
  · exact forall₂_congr fun u hu => TypeUnion.all_congr fun t ht =>
      TypeName.fixed_iff_canonical (hr.scope u hu t ht)
  · split
    next hmember =>
      -- The name of a member was never resolved, so it must come back without a mark.
      exact TypeUnion.all_congr fun t ht => TypeName.fixed_iff_of_relative (h.ofMember hmember t ht)
    next hmember =>
      by_cases hvariable : r.kind = .variable
      · obtain ⟨name, htypes⟩ := h.ofVariable hvariable
        have hcanonical := TypeName.canonical_ofSource name
        generalize hname : TypeName.ofSource name = t at htypes hcanonical
        have hfixed := TypeName.fixed_of_ofSource hname
        rw [htypes]
        exact iff_of_true (TypeUnion.all_single hfixed) (TypeUnion.all_single hcanonical)
      · have hresolved := hr.all_types (Bool.eq_false_iff.2 hmember) hvariable
        exact TypeUnion.all_congr fun t ht => TypeName.fixed_iff_canonical (hresolved t ht)

end Reference

/-! ## Readings -/

/-- Whether all type names of what was found are as asked. -/
structure Extraction.Typed (D : Extract.Discipline) (found : Extraction) : Prop where
  symbols : ∀ x ∈ found.symbols, ∀ t ∈ x.typeNames, D.type t
  scopes : ∀ x ∈ found.globals :: found.scopes, x.All D.type
  references : ∀ r ∈ found.references, r.Typed D

theorem Extraction.typed_ofTree {D : Extract.Discipline} (hD : D.Lawful) {uri source : String}
    {tree : SyntaxTree} (h : Extract.admits D ⟨none, none⟩ [] (.start uri source) tree = true) :
    (ofTree uri source tree).Typed D := by
  obtain ⟨-, hstate⟩ := Extract.yields_walk hD tree ⟨none, none⟩ h (List.forall_mem_nil _)
    (Extract.State.typed_start uri source)
  exact ⟨hstate.symbols, List.forall_mem_cons.2 ⟨hstate.globals, hstate.finished⟩,
    hstate.references⟩

namespace Extract

/-- All names are resolved and canonical. Outside of a class a name may be that of an import or
of a class, and everywhere it may lie below the namespace. -/
def canonicalizing : Discipline where
  type t := t.Resolved ∧ Canonical t.name
  used t := t.Resolved ∧ Canonical t.name
  owner := Canonical
  spelled replaced text := (replaced || decide (Canonical (Imports.trimLead text))) &&
    decide (LocallyCanonical (Text.trimBlank text))
  keyword text := (TypeName.ofSource text).isBuiltin
  documented _ t := decide (Canonical t.name) && decide (LocallyCanonical (Text.trimBlank t.name))
  accessed := Text.startsWith "$"

namespace State
variable {s : State}

theorem canonical_resolveClass (h : s.Typed canonicalizing) {raw : String}
    (hlocal : LocallyCanonical (Text.trimBlank raw)) : Canonical (s.resolveClass raw).name := by
  have himports : ∀ known target, s.imports.classes.get? known = some target →
      Canonical target := h.imports
  have htrim : Text.trimBlank (Text.trimBlank raw) = Text.trimBlank raw :=
    Text.trimBoth_trimBoth Text.isBlank raw
  unfold resolveClass
  simp only
  split
  · split
    · exact TypeName.canonical_ofAbsolute _
    · exact TypeName.canonical_ofSource _
  · -- Either the name is absolute as it is spelled, or the spelling is looked up as a whole.
    have hcases := TypeName.ofSource_cases (Text.trimBlank raw)
    rw [htrim] at hcases
    generalize TypeName.ofSource (Text.trimBlank raw) = t at hcases ⊢
    unfold TypeName.resolve TypeName.resolveAs
    rcases hcases with ⟨habsolute, h⟩ | ⟨rfl, hnone, hlead⟩
    · rw [if_pos (by simp [habsolute])]
      exact h
    · split
      · exact .inl hnone
      · have habsolute := canonical_absoluteName himports hnone hlead hlocal
        dsimp only
        exact habsolute

theorem canonical_resolveType (h : s.Typed canonicalizing) {t : TypeName} (ht : Canonical t.name)
    (hlocal : LocallyCanonical (Text.trimBlank t.name)) : Canonical (s.resolveType t).name := by
  unfold resolveType
  split
  · exact ht
  · exact canonical_resolveClass h hlocal

/-- A type that is resolved stays as it is, unless it is a word for the class around. -/
theorem canonical_resolveType_of_resolved (h : s.Typed canonicalizing) {t : TypeName}
    (hresolved : t.Resolved) (ht : Canonical t.name) : Canonical (s.resolveType t).name := by
  have hwords : ∀ word ∈ ["self", "static", "parent"], LocallyCanonical (Text.trimBlank word) := by
    decide
  unfold resolveType
  split
  · exact ht
  next hkept =>
    simp only [Bool.or_eq_true, Bool.and_eq_true, Bool.not_eq_true', not_or, not_and,
      Bool.not_eq_false] at hkept
    have hrelative := hkept.2 (hresolved.resolve_right hkept.1)
    exact canonical_resolveClass h (hwords t.name (of_decide_eq_true hrelative))

end State

theorem canonical_of_spelled {text : String} (h : canonicalizing.spelled false text = true) :
    Canonical (Imports.trimLead text) := by
  simp only [canonicalizing, Bool.false_or, Bool.and_eq_true, decide_eq_true_eq] at h
  exact h.1

theorem lawful_canonicalizing : canonicalizing.Lawful where
  inferred name hname := by
    have hall : ∀ name ∈ inferredTypes, (TypeName.ofSource name).Resolved := by decide +kernel
    simp only [canonicalizing]
    exact ⟨hall name hname, TypeName.canonical_ofSource name⟩
  closure := by
    simp only [canonicalizing]
    exact ⟨TypeName.resolved_ofAbsolute _, TypeName.canonical_ofAbsolute _⟩
  ofOwner name _ := by
    simp only [canonicalizing]
    exact ⟨TypeName.resolved_ofAbsolute name, TypeName.canonical_ofAbsolute name⟩
  owner t h := by
    simp only [canonicalizing] at h ⊢
    exact h.2
  used t h := by
    simp only [canonicalizing] at h ⊢
    exact h
  absolute name := by
    simp only [canonicalizing]
    exact ⟨TypeName.resolved_ofAbsolute name, TypeName.canonical_ofAbsolute name⟩
  accessed name h := by
    simp only [canonicalizing] at h ⊢
    have hvariable : (TypeName.verbatim name).isVariable = true := h
    exact ⟨.inr hvariable, .inl (TypeName.canonicalBuiltin?_of_isVariable hvariable)⟩
  keyword text h := by
    simp only [canonicalizing] at h ⊢
    exact ⟨TypeName.resolved_of_isBuiltin h, TypeName.canonical_ofSource text⟩
  className imports text h := by
    have hname := (canonical_of_spelled h).namespaced imports
    simp only [canonicalizing]
    exact hname
  target u c h := by
    have hname := canonical_of_spelled h
    have htwice : Canonical (Imports.trimLead (Imports.trimLead c.name)) := by
      rwa [Imports.trimLead_trimLead]
    simp only [canonicalizing]
    unfold UseStatement.target
    simp only
    split
    · exact canonical_trimLead_append htwice _
    · exact htwice
  resolveClass s replaced text hs _ h := by
    simp only [canonicalizing, Bool.and_eq_true, decide_eq_true_eq] at h ⊢
    exact ⟨s.resolved_resolveClass text, State.canonical_resolveClass hs h.2⟩
  resolveType s t hs ht := by
    simp only [canonicalizing] at ht ⊢
    exact ⟨s.resolved_resolveType t, State.canonical_resolveType_of_resolved hs ht.1 ht.2⟩
  documented s t hs h := by
    simp only [canonicalizing, Bool.and_eq_true, decide_eq_true_eq] at h ⊢
    exact ⟨s.resolved_resolveType t, State.canonical_resolveType hs h.1 h.2⟩

end Extract

/-- What a record of a finding keeps. A declaration or a scope is read back as it was just if its
type names are canonical, and so is a reference whose own name was resolved; a member's name must
not be spelled like a built-in type or with a separator in front. Imports are always read back as
they were. If what is written is canonical then so are all names that are resolved. -/
theorem findings_read_back (uri source : String) {tree : SyntaxTree} (hnested : tree.nested = true)
    (hwithin : tree.range.Within source.utf8ByteSize)
    (htypes : tree.all (SyntaxTree.hasKnownType source) = true)
    (hvariables : tree.all (SyntaxTree.hasSpelledVariables source) = true) :
    let found := Extraction.ofTree uri source tree
    (∀ x ∈ found.symbols, x.Fits →
      (ofRecord (toRecord x) = .ok x ↔ ∀ t ∈ x.typeNames, Canonical t.name)) ∧
    (∀ x ∈ found.globals :: found.scopes, x.Fits →
      (ofRecord (toRecord x) = .ok x ↔ x.All fun t => Canonical t.name)) ∧
    (∀ r ∈ found.references, r.Fits →
      (ofRecord (toRecord r) = .ok r ↔
        (∀ scope ∈ r.scope?, scope.All fun t => Canonical t.name) ∧
        if r.namesMember then
          r.types.All fun t => t.name ∉ builtinTypes ∧ Text.startsWith "\\" t.name = false
        else r.types.All fun t => Canonical t.name)) ∧
    (found.imports.Fits → ofRecord (toRecord found.imports) = .ok found.imports) ∧
    (Extract.admits Extract.canonicalizing ⟨none, none⟩ [] (.start uri source) tree = true →
      (∀ x ∈ found.symbols, ∀ t ∈ x.typeNames, Canonical t.name) ∧
      (∀ x ∈ found.globals :: found.scopes, x.All fun t => Canonical t.name) ∧
      ∀ r ∈ found.references, (∀ scope ∈ r.scope?, scope.All fun t => Canonical t.name) ∧
        (r.namesMember = false → r.types.All fun t => Canonical t.name)) := by
  intro found
  have hsound := Document.sound_ofTree uri source 0 hnested hwithin
  have hresolved : found.Typed Extract.resolving := Extraction.typed_ofTree
    Extract.lawful_resolving (Extract.admits_resolving tree _ rfl rfl htypes hvariables nofun)
  refine ⟨fun x hx hfits => ?symbol, fun x hx hfits => ?scope, fun r hr hfits => ?reference,
    fun hfits => ofRecord_toRecord (takes_imports hfits), fun hadmits => ?canonical⟩
  case symbol =>
    rw [ofRecord_symbol_iff hfits]
    exact (hsound.symbols x hx).fixed_iff_canonical (hresolved.symbols x hx)
  case scope =>
    have hlocated : x.Tidy ∧ ∃ range, x.location = .of uri range := by
      rcases List.mem_cons.1 hx with rfl | hx
      · exact ⟨hsound.globals, hsound.globalsAt⟩
      · obtain ⟨range, hlocation, -⟩ := hsound.scopesAt x hx
        exact ⟨hsound.scopes x hx, range, hlocation⟩
    obtain ⟨htidy, range, hlocation⟩ := hlocated
    rw [ofRecord_variableScope_iff hfits]
    exact VariableScope.fixed_iff_canonical htidy (Location.whole_of_eq hlocation)
      (hresolved.scopes x hx)
  case reference =>
    rw [ofRecord_reference_iff hfits]
    exact (hsound.references r hr).fixed_iff_canonical (hresolved.references r hr)
  case canonical =>
    have hcanonical : found.Typed Extract.canonicalizing :=
      Extraction.typed_ofTree Extract.lawful_canonicalizing hadmits
    refine ⟨fun x hx t ht => (hcanonical.symbols x hx t ht).2,
      fun x hx e he t ht => (hcanonical.scopes x hx e he t ht).2, fun r hr => ⟨?_, ?_⟩⟩
    · exact fun u hu t ht => ((hcanonical.references r hr).scope u hu t ht).2
    · intro hmember
      by_cases hvariable : r.kind = .variable
      · obtain ⟨name, hname⟩ := (hsound.references r hr).ofVariable hvariable
        rw [hname]
        exact TypeUnion.all_single (TypeName.canonical_ofSource name)
      · exact fun t ht => ((hcanonical.references r hr).all_types hmember hvariable t ht).2

/-- A parameter has its type from a class, and two members are taken from it. -/
theorem findings_read_back_members :
    let source := "<?php function f(A $b)\x7b$b->n();$b->string();\x7d"
    let call (start stop : UInt32) : SyntaxTree :=
      .node "expression_statement" none ⟨start, stop + 3⟩
       [.node "member_call_expression" none ⟨start, stop + 2⟩
         [.node "variable_name" (some "object") ⟨start, start + 2⟩
           [.node "$" none ⟨start, start + 1⟩ [],
            .node "name" none ⟨start + 1, start + 2⟩ []],
          .node "->" none ⟨start + 2, start + 4⟩ [],
          .node "name" (some "name") ⟨start + 4, stop⟩ [],
          .node "arguments" (some "arguments") ⟨stop, stop + 2⟩
           [.node "(" none ⟨stop, stop + 1⟩ [],
            .node ")" none ⟨stop + 1, stop + 2⟩ []]],
        .node ";" none ⟨stop + 2, stop + 3⟩ []]
    let tree : SyntaxTree :=
      .node "program" none ⟨0, 45⟩
       [.node "php_tag" none ⟨0, 5⟩ [],
        .node "function_definition" none ⟨6, 45⟩
         [.node "function" none ⟨6, 14⟩ [],
          .node "name" (some "name") ⟨15, 16⟩ [],
          .node "formal_parameters" (some "parameters") ⟨16, 22⟩
           [.node "(" none ⟨16, 17⟩ [],
            .node "simple_parameter" none ⟨17, 21⟩
             [.node "named_type" (some "type") ⟨17, 18⟩
               [.node "name" none ⟨17, 18⟩ []],
              .node "variable_name" (some "name") ⟨19, 21⟩
               [.node "$" none ⟨19, 20⟩ [],
                .node "name" none ⟨20, 21⟩ []]],
            .node ")" none ⟨21, 22⟩ []],
          .node "compound_statement" (some "body") ⟨22, 45⟩
           [.node "\x7b" none ⟨22, 23⟩ [],
            call 23 28,
            call 31 41,
            .node "\x7d" none ⟨44, 45⟩ []]]]
    let found := Extraction.ofTree "a.php" source tree
    (tree.nested = true ∧ tree.range.Within source.utf8ByteSize ∧
      tree.all (SyntaxTree.hasKnownType source) = true ∧
      tree.all (SyntaxTree.hasSpelledVariables source) = true ∧
      Extract.admits Extract.canonicalizing ⟨none, none⟩ [] (.start "a.php" source) tree = true) ∧
      found.references.map (fun r => (r.kind, r.name)) =
        [(.className, "A"), (.variable, "$b"), (.argumentList, "n"), (.methodCall, "n"),
         (.variable, "$b"), (.argumentList, "string"), (.methodCall, "string")] ∧
      (∀ x ∈ found.symbols, ofRecord (toRecord x) = .ok x) ∧
      (∀ x ∈ found.globals :: found.scopes, ofRecord (toRecord x) = .ok x) ∧
      ∀ r ∈ found.references, ofRecord (toRecord r) = .ok r ↔ r.name ≠ "string" := by
  intro source call tree found
  have hnested : tree.nested = true := by decide
  have hwithin : tree.range.Within source.utf8ByteSize := by decide
  have htypes : tree.all (SyntaxTree.hasKnownType source) = true := by decide
  have hvariables : tree.all (SyntaxTree.hasSpelledVariables source) = true := by decide +kernel
  have hadmits : Extract.admits Extract.canonicalizing ⟨none, none⟩ [] (.start "a.php" source)
      tree = true := by decide +kernel
  obtain ⟨hsymbols, hscopes, hreferences, -, hcanonical⟩ :=
    findings_read_back "a.php" source hnested hwithin htypes hvariables
  obtain ⟨hsymbol, hscope, hreference⟩ := hcanonical hadmits
  have hfits : (∀ x ∈ found.symbols, x.Fits) ∧ (∀ x ∈ found.globals :: found.scopes, x.Fits) ∧
      ∀ r ∈ found.references, r.Fits := by decide +kernel
  have hnames : ∀ r ∈ found.references, if r.namesMember then
      ((∀ t ∈ r.types.types, t.name ∉ builtinTypes ∧ Text.startsWith "\\" t.name = false) ↔
        r.name ≠ "string") else r.name ≠ "string" := by decide +kernel
  refine ⟨⟨hnested, hwithin, htypes, hvariables, hadmits⟩, by decide +kernel,
    fun x hx => (hsymbols x hx (hfits.1 x hx)).2 (hsymbol x hx),
    fun x hx => (hscopes x hx (hfits.2.1 x hx)).2 (hscope x hx), fun r hr => ?_⟩
  have hname := hnames r hr
  obtain ⟨hscope, htypes⟩ := hreference r hr
  rw [hreferences r hr (hfits.2.2 r hr), and_iff_right hscope]
  split at hname
  next hmember =>
    rw [if_pos hmember]
    exact hname
  next hmember =>
    rw [if_neg hmember]
    exact iff_of_true (htypes (Bool.eq_false_iff.2 hmember)) hname

/-- The member of a variable of unknown type is named like a built-in type. The record of the
reference is read back with the mark of an absolute name. -/
theorem member_name_marked :
    let source := "<?php $a->string();"
    let tree : SyntaxTree :=
      .node "program" none ⟨0, 19⟩
       [.node "php_tag" none ⟨0, 5⟩ [],
        .node "expression_statement" none ⟨6, 19⟩
         [.node "member_call_expression" none ⟨6, 18⟩
           [.node "variable_name" (some "object") ⟨6, 8⟩
             [.node "$" none ⟨6, 7⟩ [],
              .node "name" none ⟨7, 8⟩ []],
            .node "->" none ⟨8, 10⟩ [],
            .node "name" (some "name") ⟨10, 16⟩ [],
            .node "arguments" (some "arguments") ⟨16, 18⟩
             [.node "(" none ⟨16, 17⟩ [],
              .node ")" none ⟨17, 18⟩ []]],
          .node ";" none ⟨18, 19⟩ []]]
    ∃ r ∈ (Extraction.ofTree "a.php" source tree).references,
      r.kind = .methodCall ∧ r.types = .single ⟨"string", false⟩ ∧ r.Fits ∧
      ofRecord (toRecord r) = .ok { r with types := .single ⟨"string", true⟩ } ∧
      ofRecord (toRecord r) ≠ .ok r := by
  decide +kernel

end PhpIndex
