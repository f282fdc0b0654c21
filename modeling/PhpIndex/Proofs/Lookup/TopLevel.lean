import PhpIndex.Lookup.Definition
import PhpIndex.Proofs.Index.Lookup
import PhpIndex.Proofs.Name.BareWord

/-!
# Declarations of the top level by their own names

A class, function or constant is asked for by its absolute name. Names that spell a built-in type
are skipped before anything is looked up, in any case and with the long spellings, and the kind of
the reference does not matter for that: a function or constant of such a name is declared and
stored, but not found.
Main statement: `declaration_found_iff`.
-/
namespace PhpIndex

namespace TypeName

/-- Making a name absolute neither hides nor makes a built-in type. -/
theorem isBuiltin_ofAbsolute {name : String} (h : Text.startsWith "\\" name = false) :
    (ofAbsolute name).isBuiltin = (canonicalBuiltin? name).isSome := by
  simp only [ofAbsolute, isBuiltin, Imports.trimLead_of_not_startsWith h]
  cases hname : canonicalBuiltin? name with
  | none => rw [Option.getD_none, hname]
  | some builtin =>
    rw [Option.getD_some, canonicalBuiltin?_of_mem (mem_of_canonicalBuiltin? hname)]

theorem ofAbsolute_of_not_builtin {name : String} (h : Text.startsWith "\\" name = false)
    (hname : canonicalBuiltin? name = none) : ofAbsolute name = ⟨name, true⟩ := by
  simp only [ofAbsolute, Imports.trimLead_of_not_startsWith h, hname, Option.getD_none]

end TypeName

namespace ReferenceKind

/-- The table that names of this kind are looked up in, if they name something of the top level. -/
def topLevel? : ReferenceKind → Option TableKind
  | .function => some .functions
  | .constantAccess => some .constants
  | .className => some .classes
  | .newOperand => some .classes
  | _ => none

end ReferenceKind

namespace SymbolSource
variable {source : SymbolSource} {ctx : DocumentContext} {r : Reference} {kind : TableKind}

theorem definition_of_topLevel (hkind : r.kind.topLevel? = some kind) :
    source.definition ctx r = source.findTopLevel ctx r kind := by
  unfold definition
  cases hr : r.kind <;> rw [hr] at hkind <;> cases hkind <;> rfl

theorem findTopLevel_of_isBuiltin {t : TypeName} (htypes : r.types = .single t)
    (ht : t.isBuiltin = true) : source.findTopLevel ctx r kind = .ok [] := by
  have hnames : r.types.types.filter (fun t => !(t.isBuiltin || t.isVariable)) = [] := by
    rw [htypes, TypeUnion.single, List.filter_singleton, ht]
    rfl
  have hempty : Symbol.candidates [] = [] := by
    rw [Symbol.candidates, List.mergeSort_nil]
    rfl
  rw [findTopLevel, hnames]
  exact congrArg Except.ok hempty

/-- A reference by one absolute name means what is found by that name. -/
theorem findTopLevel_single {name : String} (htypes : r.types = .single ⟨name, true⟩)
    (hname : canonicalBuiltin? name = none) (hvariable : Text.startsWith "$" name = false) :
    source.findTopLevel ctx r kind =
      (source.findName ctx kind ⟨name, true⟩).map Symbol.candidates := by
  have hkept : (!(TypeName.isBuiltin ⟨name, true⟩ || TypeName.isVariable ⟨name, true⟩)) = true := by
    rw [TypeName.isBuiltin, TypeName.isVariable, hname, hvariable]
    rfl
  have hnames : r.types.types.filter (fun t => !(t.isBuiltin || t.isVariable)) =
      [⟨name, true⟩] := by
    rw [htypes, TypeUnion.single, List.filter_singleton, hkept]
    rfl
  rw [findTopLevel, hnames, List.mapM_cons, List.mapM_nil]
  cases source.findName ctx kind ⟨name, true⟩ with
  | error e => rfl
  | ok hits => simp [bind, Except.bind, pure, Except.pure, Except.map]

/-- An absolute name with a declaration of its own is not looked up anywhere else. -/
theorem findName_of_find {name : String} {hits : List Symbol}
    (hfind : source.find kind name = .ok hits) (hhits : hits ≠ []) :
    source.findName ctx kind ⟨name, true⟩ = .ok hits := by
  have hresolved : TypeName.resolveAs ⟨name, true⟩ ctx.imports kind.importKind = ⟨name, true⟩ := by
    simp [TypeName.resolveAs]
  have hmany : hits.isEmpty = false := List.isEmpty_eq_false_iff.2 hhits
  simp [findName, hresolved, hfind, hmany, bind, Except.bind, pure, Except.pure]

/-- A function or constant without one is looked up by the last segment of its name. -/
theorem findName_of_find_nil {name : String} {hits : List Symbol} (hkind : kind ≠ .classes)
    (hfind : source.find kind name = .ok [])
    (hshort : source.find kind (Text.afterLast '\\' name) = .ok hits) :
    source.findName ctx kind ⟨name, true⟩ = .ok hits := by
  have hresolved : TypeName.resolveAs ⟨name, true⟩ ctx.imports kind.importKind = ⟨name, true⟩ := by
    simp [TypeName.resolveAs]
  by_cases hseparator : '\\' ∈ name.toList
  · simp [findName, hresolved, hfind, hkind, hseparator, TypeName.shortName, hshort, bind,
      Except.bind]
  · have hhits : hits = [] := by
      rw [Text.afterLast_of_not_mem hseparator] at hshort
      exact Except.ok.inj (hshort.symm.trans hfind)
    simp [findName, hresolved, hfind, hseparator, hhits, bind, Except.bind, pure, Except.pure]

end SymbolSource

/-- What the top level declares is stored under its name alone. -/
theorem Symbol.indexName_of_topLevel {x : Symbol} {kind : TableKind} (h : x.table? = some kind)
    (hkind : kind ∉ TableKind.members) : x.indexName = x.name := by
  have hscope : x.scope? = none := by
    rw [← Option.not_isSome_iff_eq_none, Symbol.isSome_scope? h, TableKind.isMember]
    simpa using hkind
  rw [Symbol.indexName, hscope]

namespace Holds
variable {rows : Rows} {last : String → Option Version}

/-- A name finds the live symbols stored under it, wherever they are located. -/
theorem run_find (h : Holds rows last) (kind : TableKind) (name : String) :
    ∃ found, (Index.find kind name).run rows = .ok found ∧
      ∀ t, t ∈ found ↔ ∃ s, Live last kind s ∧ s.indexName = name ∧ t = s.normal := by
  obtain ⟨found, hfound, hall⟩ := h.run_find_candidates kind name
  exact ⟨_, hfound, fun t => by rw [Symbol.mem_candidates, hall]⟩

end Holds

namespace LiveIn
variable {last : String → Option Version} {kind : TableKind} {uri : String} {x : Symbol}

theorem indexName_of_topLevel (h : LiveIn last kind uri x) (hkind : kind ∉ TableKind.members) :
    x.indexName = x.name := Symbol.indexName_of_topLevel h.table hkind

end LiveIn

/-- After any run a reference by the name of a stored declaration finds all declarations of that
name, this one among them, just if the name spells no built-in type; else it finds nothing. -/
theorem declaration_found_iff {ops : List Operation} (hops : ∀ op ∈ ops, op.Valid)
    {kind : TableKind} {uri : String} {x : Symbol} (hx : LiveIn (lastVersion ops) kind uri x)
    (hlead : Text.startsWith "\\" x.name = false)
    (hvariable : Text.startsWith "$" x.name = false) (ctx : DocumentContext) {r : Reference}
    (hkind : r.kind.topLevel? = some kind) (htypes : r.types = .single (.ofAbsolute x.name)) :
    ∃ s found t, Store.volatile.runAll ops = .ok s ∧ ofRecord (toRecord x) = .ok t ∧
      (Index.source s.rows).definition ctx r = .ok found ∧
      (t ∈ found ↔ canonicalBuiltin? x.name = none) ∧
      ∀ u, u ∈ found ↔ canonicalBuiltin? x.name = none ∧
        ∃ y, Live (lastVersion ops) kind y ∧ y.name = x.name ∧ ofRecord (toRecord y) = .ok u := by
  obtain ⟨s, hrun, h⟩ := Holds.runAll (s := .volatile) Holds.empty hops
  have htop : kind ∉ TableKind.members := by
    cases hr : r.kind <;> rw [hr] at hkind <;> cases hkind <;> decide
  suffices hfound : ∃ found, (Index.source s.rows).definition ctx r = .ok found ∧
      ∀ u, u ∈ found ↔ canonicalBuiltin? x.name = none ∧
        ∃ y, Live (lastVersion ops) kind y ∧ y.name = x.name ∧ ofRecord (toRecord y) = .ok u by
    obtain ⟨found, hdefinition, hmem⟩ := hfound
    refine ⟨s, found, x.normal, hrun, hx.readBack h, hdefinition, ?_, hmem⟩
    rw [hmem, and_iff_left_iff_imp]
    exact fun _ => ⟨x, ⟨uri, hx⟩, rfl, hx.readBack h⟩
  rw [SymbolSource.definition_of_topLevel hkind]
  cases hname : canonicalBuiltin? x.name with
  | some builtin =>
    have hbuiltin : (TypeName.ofAbsolute x.name).isBuiltin = true := by
      rw [TypeName.isBuiltin_ofAbsolute hlead, hname]
      rfl
    exact ⟨[], SymbolSource.findTopLevel_of_isBuiltin htypes hbuiltin, by simp⟩
  | none =>
    obtain ⟨hits, hfind, hmem⟩ := h.run_find kind x.name
    have hself : x.normal ∈ hits := (hmem _).2 ⟨x, ⟨uri, hx⟩, hx.indexName_of_topLevel htop, rfl⟩
    rw [TypeName.ofAbsolute_of_not_builtin hlead hname] at htypes
    have hfound : (Index.source s.rows).findName ctx kind ⟨x.name, true⟩ = .ok hits :=
      SymbolSource.findName_of_find hfind (List.ne_nil_of_mem hself)
    refine ⟨Symbol.candidates hits, ?_, fun u => ?_⟩
    · rw [SymbolSource.findTopLevel_single htypes hname hvariable, hfound]
      rfl
    rw [Symbol.mem_candidates, hmem, eq_self, true_and]
    refine exists_congr fun y => and_congr_right fun ⟨w, hy⟩ => ?_
    rw [hy.indexName_of_topLevel htop, hy.readBack h, Except.ok.injEq, eq_comm (a := u)]

theorem declaration_found_class :
    let box : Symbol := .classLike ⟨.class, "App\\Box", .of "a.php" ⟨6, 20⟩, {}, [], [], [], none⟩
    let ops := [.replace (.ofSymbols "a.php" [box]), .remove "b.php"]
    let r : Reference :=
      { kind := .newOperand, types := .single (.ofAbsolute "App\\Box"), location := .empty }
    (∀ op ∈ ops, op.Valid) ∧ LiveIn (lastVersion ops) .classes "a.php" box ∧
      ∃ s found t, Store.volatile.runAll ops = .ok s ∧ ofRecord (toRecord box) = .ok t ∧
        (Index.source s.rows).definition (.empty "c.php") r = .ok found ∧
        (t ∈ found ↔ canonicalBuiltin? "App\\Box" = none) ∧
        ∀ u, u ∈ found ↔ canonicalBuiltin? "App\\Box" = none ∧
          ∃ y, Live (lastVersion ops) .classes y ∧ y.name = "App\\Box" ∧
            ofRecord (toRecord y) = .ok u := by
  intro box ops r
  have hops : ∀ op ∈ ops, op.Valid := by decide
  have hbox : LiveIn (lastVersion ops) .classes "a.php" box :=
    ⟨.ofSymbols "a.php" [box], by decide, by decide⟩
  exact ⟨hops, hbox, declaration_found_iff hops hbox (by decide) (by decide) (.empty "c.php")
    (r := r) (by decide) (by decide)⟩

/-- A function of the name of a pseudo type is stored, and no call of it finds it. -/
theorem builtin_function_not_found :
    let x : Symbol := .function ⟨"resource", .of "a.php" ⟨6, 28⟩, .empty, none⟩
    let ops := [.replace (.ofSymbols "a.php" [x])]
    let r : Reference :=
      { kind := .function, types := .single (.ofAbsolute "resource"), location := .empty }
    (∀ op ∈ ops, op.Valid) ∧ LiveIn (lastVersion ops) .functions "a.php" x ∧
      ∃ s, Store.volatile.runAll ops = .ok s ∧
        ∀ ctx, (Index.source s.rows).definition ctx r = .ok [] := by
  intro x ops r
  have hops : ∀ op ∈ ops, op.Valid := by decide
  obtain ⟨s, hrun, -⟩ := Holds.runAll (s := .volatile) Holds.empty hops
  refine ⟨hops, ⟨.ofSymbols "a.php" [x], by decide, by decide⟩, s, hrun, fun ctx => ?_⟩
  have hkind : r.kind.topLevel? = some .functions := rfl
  rw [SymbolSource.definition_of_topLevel hkind]
  exact SymbolSource.findTopLevel_of_isBuiltin rfl (by decide)

end PhpIndex
