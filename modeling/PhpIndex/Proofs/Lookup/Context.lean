import PhpIndex.Lookup.Completion
import PhpIndex.Lookup.Help
import PhpIndex.Proofs.Extract.Walk
import PhpIndex.Proofs.Index.Ranges

/-!
# Contexts that were stored

What is read back of a document has its types in normal form and its function scopes in another
order. Around a reference the same scope is found, since of two functions around it one lies in
the other, and names and variables mean the same.
Main statements: `DocumentContext.around_stored`, `ReadBack.receivers`, `ReadBack.definition`.
-/
namespace PhpIndex

/-! ## The scope around a reference -/

namespace Range

theorem length_eq {r : Range} (h : r.start ≤ r.stop) :
    r.length.toNat = r.stop.toNat - r.start.toNat := by
  rw [length, if_pos h, UInt32.toNat_sub_of_le _ _ h]

/-- Of two functions that end in the order of their keys, the other one is not the first to be
finished unless it is shorter or longer. -/
theorem not_closesBefore {a b : Range} (ha : a.start ≤ a.stop) (hb : b.start ≤ b.stop)
    (hinner : a.innerness < b.innerness) (hlength : a.length.toNat = b.length.toNat) :
    ¬ (b.stop ≤ a.start ∨ a.encloses b = true) := by
  rw [length_eq ha, length_eq hb] at hlength
  simp only [innerness, UInt32.size] at hinner
  have hstart := a.start.toNat_lt
  have hstart' := b.start.toNat_lt
  rw [UInt32.le_iff_toNat_le] at ha hb
  rw [encloses_iff, UInt32.le_iff_toNat_le, UInt32.le_iff_toNat_le, UInt32.le_iff_toNat_le]
  rintro (h | h)
  · omega
  · omega

end Range

/-- Scopes with their ranges, in the order in which the functions end. -/
structure Finished (scopes : List (Range × VariableScope)) : Prop where
  range : ∀ e ∈ scopes, e.2.range? = some e.1
  forward : ∀ e ∈ scopes, e.1.start ≤ e.1.stop
  ordered : (scopes.map Prod.snd).Pairwise VariableScope.ClosesBefore

/-- Where scopes are of one length, their keys have the order in which they were finished. -/
theorem Finished.ascends_sorted {scopes : List (Range × VariableScope)} (h : Finished scopes) :
    Ascends (fun e : (Range × VariableScope) × Nat => e.1.1.length.toNat) Prod.snd
      (RangeIndex.sorted scopes) := by
  refine (RangeIndex.pairwise_sorted scopes).imp_of_mem fun {a b} ha hb hab hlength => ?_
  by_contra hle
  have hget {e : (Range × VariableScope) × Nat} (he : e ∈ RangeIndex.sorted scopes) :
      scopes[e.2]? = some e.1 :=
    List.mem_zipIdx_iff_getElem?.1 ((RangeIndex.perm_sorted scopes).mem_iff.1 he)
  obtain ⟨halt, haget⟩ := List.getElem?_eq_some_iff.1 (hget ha)
  obtain ⟨hblt, hbget⟩ := List.getElem?_eq_some_iff.1 (hget hb)
  have hamem : a.1 ∈ scopes := haget ▸ List.getElem_mem halt
  have hbmem : b.1 ∈ scopes := hbget ▸ List.getElem_mem hblt
  rw [RangeIndex.order_eq] at hab
  have hinner : a.1.1.innerness < b.1.1.innerness := by
    by_contra hnot
    rcases Nat.lt_or_eq_of_le (Nat.le_of_not_lt hnot) with hgt | heq
    · rw [Nat.compare_eq_gt.2 hgt] at hab
      cases hab
    · rw [Nat.compare_eq_eq.2 heq.symm] at hab
      exact hle (Nat.compare_eq_lt.1 hab)
  have hlt : b.2 < a.2 := by
    refine Nat.lt_of_le_of_ne (Nat.le_of_not_lt hle) fun heq => ?_
    have hsame : a.1 = b.1 := by
      rw [← haget, ← hbget]
      simp only [heq]
    rw [hsame] at hinner
    exact Nat.lt_irrefl _ hinner
  obtain ⟨rb, ra, hrb, hra, hcloses⟩ : VariableScope.ClosesBefore b.1.2 a.1.2 := by
    have hpair := List.pairwise_iff_getElem.1 h.ordered b.2 a.2 (by simpa using hblt)
      (by simpa using halt) hlt
    simp only [List.getElem_map, haget, hbget] at hpair
    exact hpair
  obtain rfl := Option.some.inj ((h.range b.1 hbmem).symm.trans hrb)
  obtain rfl := Option.some.inj ((h.range a.1 hamem).symm.trans hra)
  exact Range.not_closesBefore (h.forward a.1 hamem) (h.forward b.1 hbmem) hinner hlength hcloses

namespace VariableScope

/-- The scope is in a document, and its types survive storing. -/
structure Kept (s : VariableScope) : Prop where
  located : ∃ uri range, s.location = .of uri range
  tidy : s.Tidy

theorem Kept.range?_normal {s : VariableScope} (h : s.Kept) : s.normal.range? = s.range? := by
  obtain ⟨uri, range, hlocation⟩ := h.located
  exact VariableScope.range?_normal s hlocation

end VariableScope

/-- The scopes of functions that are read back, innermost first. -/
def Finished.stored (scopes : List (Range × VariableScope)) : List VariableScope :=
  (RangeIndex.sorted scopes).map fun e => e.1.2.normal

namespace DocumentContext
variable {ctx : DocumentContext} {scopes : List (Range × VariableScope)}

/-- The smallest of the scopes around a range. -/
def around (scopes : List VariableScope) (target : Range) : Option VariableScope :=
  leastBy (fun s => ((s.range?.map Range.length).getD 0).toNat)
    (scopes.filter fun s => s.range?.any fun range => range.encloses target)

theorem scopeFor_eq (ctx : DocumentContext) (r : Reference) :
    ctx.scopeFor r = ((r.scopeRange?.orElse fun _ => r.range?).bind (around ctx.scopes)).getD
      ctx.globals := by
  unfold scopeFor
  cases r.scopeRange?.orElse fun _ => r.range? <;> rfl

/-- The smallest scope is picked by the ranges that stand beside the scopes. -/
theorem around_map {α : Type} {l : List α} (range : α → Range) (scope : α → VariableScope)
    (hrange : ∀ e ∈ l, (scope e).range? = some (range e)) (target : Range) :
    around (l.map scope) target =
      (leastBy (fun e => (range e).length.toNat)
        (l.filter fun e => (range e).encloses target)).map scope := by
  have hfilter : (l.map scope).filter (fun s =>
        s.range?.any fun range => range.encloses target) =
      (l.filter fun e => (range e).encloses target).map scope := by
    rw [List.filter_map]
    refine congrArg _ (List.filter_congr fun e he => ?_)
    rw [Function.comp_apply, hrange e he]
    rfl
  rw [around, hfilter, leastBy_map]
  refine congrArg _ (leastBy_congr fun e he => ?_)
  rw [hrange e (List.mem_of_mem_filter he)]
  rfl

/-- Around any range the same scope is found in both orders. -/
theorem around_stored (h : Finished scopes) (hkept : ∀ e ∈ scopes, e.2.Kept) (target : Range) :
    around (Finished.stored scopes) target =
      (around (scopes.map Prod.snd) target).map VariableScope.normal := by
  let p := fun e : (Range × VariableScope) × Nat => e.1.1.encloses target
  have hperm := RangeIndex.perm_sorted scopes
  have hmem {e : (Range × VariableScope) × Nat} (he : e ∈ scopes.zipIdx) : e.1 ∈ scopes :=
    List.mem_of_getElem? (List.mem_zipIdx_iff_getElem?.1 he)
  have hzip : Ascends (fun e : (Range × VariableScope) × Nat => e.1.1.length.toNat) Prod.snd
      scopes.zipIdx := by
    refine (RangeIndex.pairwise_zipIdx scopes).imp fun {a b} hlt => ?_
    intro _
    exact hlt
  have hleast : leastBy (fun e => e.1.1.length.toNat) (scopes.zipIdx.filter p) =
      leastBy (fun e => e.1.1.length.toNat) ((RangeIndex.sorted scopes).filter p) :=
    leastBy_eq_of_perm (hperm.symm.filter p) (List.Pairwise.filter p hzip)
      (List.Pairwise.filter p h.ascends_sorted)
  have hscopes : scopes.map Prod.snd = scopes.zipIdx.map fun e => e.1.2 := by
    conv_lhs => rw [← List.zipIdx_map_fst 0 scopes, List.map_map]
    rfl
  have hgiven := around_map (l := scopes.zipIdx) (fun e => e.1.1) (fun e => e.1.2)
    (fun e he => h.range e.1 (hmem he)) target
  have hstored := around_map (l := RangeIndex.sorted scopes) (fun e => e.1.1)
    (fun e => e.1.2.normal) (fun e he => by
      have he := hmem (hperm.mem_iff.1 he)
      exact (hkept e.1 he).range?_normal.trans (h.range e.1 he)) target
  rw [hscopes, hgiven, Finished.stored, hstored, ← hleast, Option.map_map]
  rfl

end DocumentContext

/-! ## Names and variables -/

namespace Reference

/-- The reference is in a document, and its types survive storing. -/
structure Kept (r : Reference) : Prop where
  located : ∃ uri range, r.location = .of uri range
  types : r.types.Tidy
  scope : ∀ u ∈ r.scope?, u.Tidy

namespace Kept
variable {r : Reference} (h : r.Kept)
include h

theorem location_normal : r.normal.location = r.location := by
  obtain ⟨uri, range, hlocation⟩ := h.located
  rw [normal, hlocation, Location.normal_of]

theorem range?_normal : r.normal.range? = r.range? := congrArg Location.range? h.location_normal

theorem name_normal : r.normal.name = r.name := by
  have htypes : r.normal.types = r.types.normal := rfl
  rw [name, name, htypes, h.types.first?_normal]
  cases hfirst : r.types.first? with
  | none => rfl
  | some t => exact TypeName.name_normal (h.types.steady t (List.mem_of_head? hfirst))

end Kept
end Reference

namespace DocumentContext

/-- Whether the second context is what was read back of the first one. -/
structure ReadBack (ctx stored : DocumentContext) : Prop where
  imports : stored.imports = ctx.imports
  globals : stored.globals = ctx.globals.normal
  around : ∀ target,
    around stored.scopes target = (around ctx.scopes target).map VariableScope.normal
  tidyGlobals : ctx.globals.Tidy
  tidyScopes : ∀ s ∈ ctx.scopes, s.Tidy

namespace ReadBack
variable {ctx stored : DocumentContext} (h : ctx.ReadBack stored) {r : Reference}
include h

theorem scopeFor (hr : r.Kept) : stored.scopeFor r.normal = (ctx.scopeFor r).normal := by
  have hscopeRange : r.normal.scopeRange? = r.scopeRange? := rfl
  rw [scopeFor_eq, scopeFor_eq, hscopeRange, hr.range?_normal, h.globals]
  cases r.scopeRange?.orElse fun _ => r.range? with
  | none => rfl
  | some target =>
    rw [Option.bind_some, Option.bind_some, h.around, Option.getD_map]

theorem tidy_scopeFor (r : Reference) : (ctx.scopeFor r).Tidy := by
  rw [scopeFor_eq]
  cases hscope : (r.scopeRange?.orElse fun _ => r.range?).bind
      (DocumentContext.around ctx.scopes) with
  | none => exact h.tidyGlobals
  | some s =>
    obtain ⟨target, -, hs⟩ := Option.bind_eq_some_iff.1 hscope
    exact h.tidyScopes s (List.mem_of_mem_filter (mem_of_leastBy hs))

theorem variableTypes (hr : r.Kept) (name : String) :
    stored.variableTypes r.normal name = (ctx.variableTypes r name).normal := by
  have hgetD (s : VariableScope) :
      (s.normal.get? name).getD .empty = ((s.get? name).getD .empty).normal := by
    rw [VariableScope.get?_normal]
    cases s.get? name <;> rfl
  have hinner := (h.tidy_scopeFor r).getD name
  simp only [DocumentContext.variableTypes, h.scopeFor hr, h.globals, hgetD, hinner.isEmpty_normal]
  split <;> rfl

theorem tidy_variableTypes (r : Reference) (name : String) : (ctx.variableTypes r name).Tidy := by
  unfold DocumentContext.variableTypes
  simp only
  split
  · exact h.tidyGlobals.getD name
  · exact (h.tidy_scopeFor r).getD name

/-- The same types are met, in normal form. -/
theorem receiverTypes (hr : r.Kept) :
    stored.receiverTypes r.normal = (ctx.receiverTypes r).map TypeName.normal := by
  have hscope : (r.scope?.getD .empty).Tidy := by
    cases hr' : r.scope? with
    | none => exact TypeUnion.tidy_empty
    | some u => exact hr.scope u hr'
  have hnormal : r.normal.scope?.getD .empty = (r.scope?.getD .empty).normal := by
    rw [Reference.normal]
    cases r.scope? <;> rfl
  rw [DocumentContext.receiverTypes, DocumentContext.receiverTypes, hnormal, hscope.types_normal,
    List.flatMap_map, List.map_flatMap]
  refine List.flatMap_congr fun t ht => ?_
  have hsteady := hscope.steady t ht
  rw [TypeName.isVariable_normal hsteady, TypeName.name_normal hsteady, h.variableTypes hr,
    (h.tidy_variableTypes r t.name).types_normal]
  split <;> rfl

theorem steady_receiverTypes (hr : r.Kept) : ∀ t ∈ ctx.receiverTypes r, t.Steady := by
  intro t ht
  obtain ⟨t', ht', ht⟩ := List.mem_flatMap.1 ht
  split at ht
  · exact (h.tidy_variableTypes r t'.name).steady t ht
  · obtain rfl := List.mem_singleton.1 ht
    cases hscope : r.scope? with
    | none =>
      rw [hscope] at ht'
      exact absurd ht' List.not_mem_nil
    | some u =>
      rw [hscope] at ht'
      exact (hr.scope u hscope).steady t ht'

/-- Members are looked up on the same classes. -/
theorem receivers (hr : r.Kept) : stored.receivers r.normal = ctx.receivers r := by
  let isClass := fun t : TypeName => !(t.isBuiltin || t.isVariable || t.name.isEmpty)
  have hclass : (ctx.receiverTypes r).filter (isClass ∘ TypeName.normal) =
      (ctx.receiverTypes r).filter isClass := by
    refine List.filter_congr fun t ht => ?_
    have hsteady := h.steady_receiverTypes hr t ht
    simp only [isClass, Function.comp_apply, TypeName.isBuiltin_normal hsteady,
      TypeName.isVariable_normal hsteady, TypeName.name_normal hsteady]
  simp only [DocumentContext.receivers, h.receiverTypes hr, h.imports]
  rw [List.filter_map, List.map_map, hclass]
  refine congrArg List.eraseDups (List.map_congr_left fun t ht => ?_)
  obtain ⟨hmem, hnone⟩ := List.mem_filter.1 ht
  have hbuiltin : t.isBuiltin = false := by
    simp only [isClass, Bool.not_eq_true', Bool.or_eq_false_iff] at hnone
    exact hnone.1.1
  rw [Function.comp_apply, TypeName.normal_of_not_isBuiltin (h.steady_receiverTypes hr t hmem)
    hbuiltin]

theorem findTopLevel (hr : r.Kept) (source : SymbolSource) (kind : TableKind) :
    source.findTopLevel stored r.normal kind = source.findTopLevel ctx r kind := by
  have hnames : (r.normal.types.types.filter fun t => !(t.isBuiltin || t.isVariable)) =
      r.types.types.filter fun t => !(t.isBuiltin || t.isVariable) := by
    refine hr.types.filter_normal (fun t ht => ?_) fun t ht => ?_
    · simp only [Bool.not_eq_true', Bool.or_eq_false_iff] at ht
      exact ht.1
    · rw [TypeName.isBuiltin_normal ht, TypeName.isVariable_normal ht]
  have hfind : source.findName stored kind = source.findName ctx kind := by
    funext t
    rw [SymbolSource.findName, SymbolSource.findName, h.imports]
  rw [SymbolSource.findTopLevel, SymbolSource.findTopLevel, hfind]
  simp only [hnames]

theorem findMembers (hr : r.Kept) (source : SymbolSource) (kinds : List TableKind) :
    source.findMembers stored r.normal kinds = source.findMembers ctx r kinds := by
  rw [SymbolSource.findMembers, SymbolSource.findMembers, h.receivers hr, hr.name_normal]

theorem findCallee (hr : r.Kept) (source : SymbolSource) :
    source.findCallee stored r.normal = source.findCallee ctx r := by
  have hscope : r.normal.scope?.isSome = r.scope?.isSome := Option.isSome_map
  rw [SymbolSource.findCallee, SymbolSource.findCallee, hscope, h.findMembers hr, h.findTopLevel hr]

theorem findVariable (hr : r.Kept) :
    stored.findVariable r.normal = (ctx.findVariable r).map Symbol.normal := by
  rw [DocumentContext.findVariable, DocumentContext.findVariable, hr.name_normal, h.scopeFor hr,
    h.globals, VariableScope.get?_normal, VariableScope.get?_normal]
  cases (ctx.scopeFor r).get? r.name with
  | some types => rfl
  | none =>
    cases ctx.globals.get? r.name with
    | some types => rfl
    | none => rfl

theorem tidy_findVariable (r : Reference) : ∀ s ∈ ctx.findVariable r, s.Tidy := by
  intro s hs
  unfold DocumentContext.findVariable at hs
  cases hinner : (ctx.scopeFor r).get? r.name with
  | some types =>
    rw [hinner] at hs
    rw [List.mem_singleton.1 hs]
    exact (h.tidy_scopeFor r).get? types hinner
  | none =>
    cases houter : ctx.globals.get? r.name with
    | some types =>
      rw [hinner, houter] at hs
      rw [List.mem_singleton.1 hs]
      exact h.tidyGlobals.get? types houter
    | none =>
      rw [hinner, houter] at hs
      exact absurd hs List.not_mem_nil

/-- A name means in the stored context what it means in the other one. -/
theorem definition (hr : r.Kept) (source : SymbolSource) (hkind : r.kind ≠ .variable) :
    source.definition stored r.normal = source.definition ctx r := by
  have hnormal : r.normal.kind = r.kind := rfl
  unfold SymbolSource.definition
  rw [hnormal]
  cases hr' : r.kind with
  | «variable» => exact absurd hr' hkind
  | function => exact h.findTopLevel hr source _
  | constantAccess => exact h.findTopLevel hr source _
  | className => exact h.findTopLevel hr source _
  | newOperand => exact h.findTopLevel hr source _
  | staticMethod => exact h.findMembers hr source _
  | methodCall => exact h.findMembers hr source _
  | staticProperty => exact h.findMembers hr source _
  | propertyAccess => exact h.findMembers hr source _
  | classConstant => exact h.findMembers hr source _
  | scopedAccess => exact h.findMembers hr source _
  | argumentList => exact h.findCallee hr source

theorem signatureHelp (hr : r.Kept) (source : SymbolSource) (offset : UInt32) :
    source.signatureHelp stored r.normal offset = source.signatureHelp ctx r offset := by
  rw [SymbolSource.signatureHelp, SymbolSource.signatureHelp, h.findCallee hr]
  rfl

theorem completeMembers (hr : r.Kept) (source : SymbolSource) (keyword : String) (limit : Nat) :
    source.completeMembers stored r.normal keyword limit =
      source.completeMembers ctx r keyword limit := by
  rw [SymbolSource.completeMembers, SymbolSource.completeMembers, h.receivers hr]
  rfl

theorem completeVariables (hr : r.Kept) (keyword : String) :
    stored.completeVariables r.normal keyword =
      (ctx.completeVariables r keyword).map Symbol.normal := by
  have hentries (s : VariableScope) : s.normal.types.entries =
      s.types.entries.map fun e => (e.1, e.2.normal) := rfl
  simp only [DocumentContext.completeVariables, hr.name_normal, h.scopeFor hr, hentries,
    List.filter_map, List.map_map]
  rfl

end ReadBack

/-- The context of a record and of its scopes is what was stored of it. -/
theorem readBack_of_finished {ctx : DocumentContext} {scopes : List (Range × VariableScope)}
    (h : Finished scopes) (hkept : ∀ e ∈ scopes, e.2.Kept)
    (hscopes : ctx.scopes = scopes.map Prod.snd) (hglobals : ctx.globals.Tidy)
    {record : DocumentRecord} (himports : record.imports = ctx.imports)
    (hrecord : record.globals = ctx.globals.normal) :
    ctx.ReadBack (.ofRecord record (Finished.stored scopes)) where
  imports := himports
  globals := hrecord
  around target := by
    rw [hscopes]
    exact around_stored h hkept target
  tidyGlobals := hglobals
  tidyScopes s hs := by
    rw [hscopes] at hs
    obtain ⟨e, he, rfl⟩ := List.mem_map.1 hs
    exact (hkept e he).tidy

end DocumentContext
end PhpIndex
