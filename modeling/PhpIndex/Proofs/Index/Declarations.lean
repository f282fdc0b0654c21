import PhpIndex.Proofs.Index.Lookup
import PhpIndex.Proofs.Index.Replacement
import Mathlib.Data.List.Dedup

/-!
# Declarations of one name

A declaration is stored under its document and its name. Of the declarations of a document that
share a table and a name the store so keeps the last one, and nothing is lost just if names tell
the declarations of the document apart.
Main statements: `replaced_declarations`, `redeclaration_lost`.
-/
namespace PhpIndex

namespace Version

/-- Whether the symbols that share a table and a name are one symbol. -/
def NamesTell (v : Version) : Prop :=
  ∀ s ∈ v.symbols, ∀ t ∈ v.symbols, s.table? = t.table? → s.indexName = t.indexName → s = t

instance : DecidablePred NamesTell := fun _ => inferInstanceAs (Decidable (∀ _ ∈ _, _))

/-- The symbols of a table that are the last ones of their names. -/
def keptOf (v : Version) (kind : TableKind) : List Symbol :=
  v.symbols.dedup.filter fun s => v.declared kind s.indexName = some s

/-- The symbols that are the last ones of their names in their tables. -/
def kept (v : Version) : List Symbol :=
  v.symbols.dedup.filter fun s => (s.table?.bind fun kind => v.declared kind s.indexName) = some s

theorem mem_keptOf {v : Version} {kind : TableKind} {s : Symbol} :
    s ∈ v.keptOf kind ↔ v.declared kind s.indexName = some s := by
  simp only [keptOf, List.mem_filter, List.mem_dedup, decide_eq_true_eq, and_iff_right_iff_imp]
  exact fun h => (declared_eq_some h).1

theorem nodup_keptOf (v : Version) (kind : TableKind) : (v.keptOf kind).Nodup :=
  (List.nodup_dedup v.symbols).filter _

/-- A symbol that is kept is kept in its own table. -/
theorem flatMap_keptOf_perm (v : Version) : (TableKind.all.flatMap v.keptOf).Perm v.kept := by
  have hkind {kind : TableKind} {s : Symbol} (h : s ∈ v.keptOf kind) : s.table? = some kind :=
    (declared_eq_some (mem_keptOf.1 h)).2.1
  have hnodup : (TableKind.all.flatMap v.keptOf).Nodup := by
    refine List.nodup_flatMap.2 ⟨fun kind _ => v.nodup_keptOf kind, ?_⟩
    refine List.Pairwise.imp (fun {kind kind'} hne s h h' => hne ?_)
      (show TableKind.all.Nodup by decide)
    exact Option.some.inj ((hkind h).symm.trans (hkind h'))
  refine (List.perm_ext_iff_of_nodup hnodup ((List.nodup_dedup v.symbols).filter _)).2 fun s => ?_
  simp only [List.mem_flatMap, List.mem_filter, List.mem_dedup, decide_eq_true_eq]
  constructor
  · rintro ⟨kind, -, h⟩
    exact ⟨(declared_eq_some (mem_keptOf.1 h)).1, by rw [hkind h]; exact mem_keptOf.1 h⟩
  · rintro ⟨-, h⟩
    obtain ⟨kind, -, h⟩ := Option.bind_eq_some_iff.1 h
    exact ⟨kind, by cases kind <;> decide, mem_keptOf.2 h⟩

/-- All symbols are kept just if names tell them apart. -/
theorem length_kept_iff {v : Version} (h : ∀ s ∈ v.symbols, s.table?.isSome) :
    v.kept.length = v.symbols.dedup.length ↔ v.NamesTell := by
  rw [kept, List.length_filter_eq_length_iff]
  simp only [List.mem_dedup, decide_eq_true_eq]
  refine ⟨fun hall s hs t ht htable hname => ?_, fun htell s hs => ?_⟩
  · have hlast := (hall s hs).symm.trans (htable ▸ hname ▸ hall t ht)
    exact Option.some.inj hlast
  · obtain ⟨kind, hkind⟩ := Option.isSome_iff_exists.1 (h s hs)
    obtain ⟨t, ht⟩ := exists_declared hs hkind
    obtain ⟨hmem, htkind, hname⟩ := declared_eq_some ht
    obtain rfl := htell t hmem s hs (htkind.trans hkind.symm) hname
    rw [hkind]
    exact ht

end Version

/-! ## What is found by name -/

/-- Whether every name in the rows leads to a document. -/
def Rows.Named (rows : Rows) : Prop :=
  ∀ kind k value, rows.get? ((IndexPart.names kind).table.key k) = some value →
    ∃ uri, value = Bytes.ofText uri

namespace Index
variable {rows : Rows}

/-- A declaration is read from the row of its document and name, if there is one. -/
theorem run_get_declaration (hlegible : rows.Legible) (kind : TableKind) (uri name : String) :
    ∃ s?, ((KindTables.of kind).declarations.get uri name).run rows = .ok s? ∧
      ∀ s : Symbol, rows.get? ((IndexPart.declarations kind).table.key (joinKey [uri, name])) =
        some (toRecord s) → s.Fits → s? = some s.normal := by
  let key := (IndexPart.declarations kind).table.key (joinKey [uri, name])
  have hget : (KindTables.of kind).declarations.table.key (joinKey [uri, name]) = key := rfl
  cases hrow : rows.get? key with
  | none =>
    refine ⟨none, ?_, fun s hs => by cases hs⟩
    refine (Query.run_bind_eq_ok rows (Query.run_get rows _ _)).trans ?_
    rw [hget, hrow]
    rfl
  | some value =>
    obtain ⟨t, ht⟩ := hlegible kind _ value hrow
    refine ⟨some t, ?_, fun s hs hfits => ?_⟩
    · refine (Query.run_bind_eq_ok rows (Query.run_get rows _ _)).trans ?_
      rw [hget, hrow]
      simp only [ht]
      rfl
    · obtain rfl := Option.some.inj hs
      rw [ofRecord_symbol hfits, Except.ok.injEq] at ht
      rw [ht]

/-- A search by name succeeds, and finds what the rows of some document under the name hold. -/
theorem run_find (hlegible : rows.Legible) (hnamed : rows.Named) (kind : TableKind)
    (name : String) : ∃ found, (Index.find kind name).run rows = .ok found ∧
      ∀ uri (s : Symbol), s.Fits →
        rows.get? ((IndexPart.names kind).table.key (joinKey [name, uri])) =
          some (Bytes.ofText uri) →
        rows.get? ((IndexPart.declarations kind).table.key (joinKey [uri, name])) =
          some (toRecord s) → s.normal ∈ found := by
  let lead := (IndexPart.names kind).table.key (joinKey [name, ""])
  have hread : ∀ row ∈ rows.scan lead, ∃ uri, NameIndex.readText row.2 = .ok uri := by
    rintro ⟨key, value⟩ hrow
    obtain ⟨k, -, -, hget⟩ := IndexPart.mem_scan.1 hrow
    obtain ⟨uri, rfl⟩ := hnamed kind k value hget
    exact ⟨uri, Holds.readText_ofText uri⟩
  obtain ⟨uris, huris, hall⟩ := mapM_eq_ok hread
  have hnames : ((KindTables.of kind).names.find name).run rows = .ok uris := by
    refine (Query.run_bind_eq_ok rows (Query.run_scan rows _ _)).trans ?_
    rw [List.mapM_map]
    exact congrArg (fun r => (Query.ofFormat r).run rows) huris
  choose get hget hrow using run_get_declaration hlegible kind
  have hgets := Query.run_forEach_eq_map rows (l := uris)
    (f := fun uri => (KindTables.of kind).declarations.get uri name) (g := fun uri => get uri name)
    fun uri _ => hget uri name
  refine ⟨_, (Query.run_bind_eq_ok rows hnames).trans (Query.run_bind_eq_ok rows hgets), ?_⟩
  intro uri s hfits hname hdeclaration
  have hscan : ((IndexPart.names kind).table.key (joinKey [name, uri]), Bytes.ofText uri) ∈
      rows.scan lead := by
    refine IndexPart.mem_scan.2 ⟨_, ?_, rfl, hname⟩
    rw [joinKey_pair, joinKey_pair]
    exact ⟨Bytes.ofText uri, by simp⟩
  obtain ⟨uri', hmem, hread'⟩ := exists_right_of_forall₂ hall hscan
  rw [Holds.readText_ofText, Except.ok.injEq] at hread'
  subst hread'
  refine Symbol.mem_candidates.2 (List.mem_filterMap.2 ⟨get uri name, ?_, hrow uri name s
    hdeclaration hfits⟩)
  exact List.mem_map.2 ⟨uri, hmem, rfl⟩

end Index

/-! ## What a document lists -/

namespace Store
variable {s s' : Store} {v : Version}

/-- After a replacement the document has one declaration row for each symbol that is kept. -/
theorem scan_declarations_perm (h : (Operation.replace v).run s = .ok s') (kind : TableKind) :
    (s'.rows.scan ((IndexPart.declarations kind).table.key (joinKey [v.uri, ""]))).Perm
      ((v.keptOf kind).map fun t =>
        ((IndexPart.declarations kind).table.key (joinKey [v.uri, t.indexName]), toRecord t)) := by
  have hled (name : String) : (IndexPart.declarations kind).Led v.uri (joinKey [v.uri, name]) := by
    rw [IndexPart.Led, joinKey_pair, joinKey_pair]
    exact ⟨Bytes.ofText name, by simp⟩
  have hrow (name : String) :
      s'.rows.get? ((IndexPart.declarations kind).table.key (joinKey [v.uri, name])) =
        (v.declared kind name).map toRecord :=
    (get?_led h (hled name)).trans (v.get?_rows_declaration kind name)
  have hscan : (s'.rows.scan ((IndexPart.declarations kind).table.key (joinKey [v.uri, ""]))).Nodup
      := by
    rw [Rows.scan_eq_filter]
    exact (OrderedMap.nodup_of_ascending s'.rows.ascending).filter _
  have hkept : ((v.keptOf kind).map fun t =>
      ((IndexPart.declarations kind).table.key (joinKey [v.uri, t.indexName]),
        toRecord t)).Nodup := by
    refine (v.nodup_keptOf kind).map_on fun a ha b hb hab => ?_
    have hname := Version.joinKey_pair_inj (IndexPart.key_inj (Prod.mk.inj hab).1).2
    have hdeclared := Version.mem_keptOf.1 ha
    rw [hname, Version.mem_keptOf.1 hb] at hdeclared
    exact (Option.some.inj hdeclared).symm
  refine (List.perm_ext_iff_of_nodup hscan hkept).2 fun ⟨key, value⟩ => ?_
  rw [IndexPart.mem_scan, List.mem_map]
  constructor
  · rintro ⟨k, hk, rfl, hget⟩
    rw [get?_led h (p := .declarations kind) hk] at hget
    obtain ⟨t, -, -, rfl, -⟩ := Version.enters_of_get?_rows hget
    rw [Version.get?_rows_declaration, Option.map_eq_some_iff] at hget
    obtain ⟨last, hlast, rfl⟩ := hget
    have hindex := (Version.declared_eq_some hlast).2.2
    exact ⟨last, Version.mem_keptOf.2 (hindex ▸ hlast), by rw [hindex]⟩
  · rintro ⟨t, ht, heq⟩
    obtain ⟨rfl, rfl⟩ := Prod.mk.inj heq
    refine ⟨_, hled t.indexName, rfl, ?_⟩
    rw [hrow, Version.mem_keptOf.1 ht]
    rfl

/-- After a replacement the document lists the symbols that are kept. -/
theorem run_documentSymbols (h : (Operation.replace v).run s = .ok s')
    (hfits : ∀ t ∈ v.symbols, t.Fits) : ∃ listed,
      (Index.documentSymbols v.uri).run s'.rows = .ok listed ∧
        listed.Perm (v.kept.map Symbol.normal) := by
  have hkind (kind : TableKind) : ∃ old, (Index.symbolsOfKind v.uri kind).run s'.rows = .ok old ∧
      old.Perm ((v.keptOf kind).map Symbol.normal) := by
    have hread : List.Forall₂ (fun (row : Row) t => ofRecord (α := Symbol) row.2 = .ok t)
        ((v.keptOf kind).map fun t => ((IndexPart.declarations kind).table.key
          (joinKey [v.uri, t.indexName]), toRecord t)) ((v.keptOf kind).map Symbol.normal) := by
      rw [List.forall₂_map_left_iff, List.forall₂_map_right_iff, List.forall₂_same]
      exact fun t ht => ofRecord_symbol (hfits t (Version.declared_eq_some
        (Version.mem_keptOf.1 ht)).1)
    obtain ⟨old, hold, hperm⟩ := List.perm_comp_forall₂ (scan_declarations_perm h kind) hread
    exact ⟨old, Index.run_symbolsOfKind_iff.2 (mapM_of_forall₂ hold), hperm⟩
  choose old hold hperm using hkind
  have hgroups := Query.run_forEach_eq_map s'.rows (l := TableKind.all)
    fun kind _ => hold kind
  refine ⟨_, Query.run_bind_eq_ok s'.rows (Query.run_bind_eq_ok s'.rows hgroups), ?_⟩
  refine (List.mergeSort_perm _ _).trans ?_
  rw [← List.flatMap_def]
  refine (List.Perm.flatMap_left _ fun kind _ => hperm kind).trans ?_
  rw [← List.map_flatMap]
  exact v.flatMap_keptOf_perm.map Symbol.normal

end Store

/-! ## What a replacement keeps -/

/-- Whether the last declaration of every name of the version is found, and those are listed. -/
structure KeepsLast (v : Version) (rows : Rows) : Prop where
  decoded : ∀ s ∈ v.symbols, ofRecord (toRecord s) = .ok s.normal
  found : ∀ s ∈ v.symbols, ∀ kind, s.table? = some kind →
    ∃ last found, v.declared kind s.indexName = some last ∧
      (Index.find kind s.indexName).run rows = .ok found ∧ last.normal ∈ found
  listed : ∃ listed, (Index.documentSymbols v.uri).run rows = .ok listed ∧
    listed.Perm (v.kept.map Symbol.normal)

/-- Whether every declaration of the version is found, and as many are listed. -/
structure KeepsAll (v : Version) (rows : Rows) : Prop where
  found : ∀ s ∈ v.symbols, ∀ kind, s.table? = some kind →
    ∃ found t, (Index.find kind s.indexName).run rows = .ok found ∧
      ofRecord (toRecord s) = .ok t ∧ t ∈ found
  listed : ∃ listed, (Index.documentSymbols v.uri).run rows = .ok listed ∧
    listed.length = v.symbols.dedup.length

/-- Where the last declarations are kept, all are just if names tell them apart. -/
theorem KeepsLast.keepsAll_iff {v : Version} {rows : Rows} (h : KeepsLast v rows)
    (htables : ∀ s ∈ v.symbols, s.table?.isSome) : KeepsAll v rows ↔ v.NamesTell := by
  obtain ⟨listed, hlisted, hperm⟩ := h.listed
  have hlength : listed.length = v.kept.length := by rw [hperm.length_eq, List.length_map]
  refine ⟨fun hall => ?_, fun htell => ⟨fun s hs kind hkind => ?_, listed, hlisted, ?_⟩⟩
  · obtain ⟨listed', hlisted', hcount⟩ := hall.listed
    obtain rfl := Except.ok.inj (hlisted.symm.trans hlisted')
    exact (Version.length_kept_iff htables).1 (hlength.symm.trans hcount)
  · obtain ⟨last, found, hlast, hfound, hmem⟩ := h.found s hs kind hkind
    obtain ⟨hlastmem, hlastkind, hname⟩ := Version.declared_eq_some hlast
    obtain rfl := htell last hlastmem s hs (hlastkind.trans hkind.symm) hname
    exact ⟨found, last.normal, hfound, h.decoded last hs, hmem⟩
  · exact hlength.trans ((Version.length_kept_iff htables).2 htell)

/-- Wherever a version is stored over legible rows its last declarations are kept. -/
theorem Store.keepsLast {s s' : Store} {v : Version} (h : (Operation.replace v).run s = .ok s')
    (hlegible : s'.rows.Legible) (hnamed : s'.rows.Named) (hfits : ∀ t ∈ v.symbols, t.Fits) :
    KeepsLast v s'.rows := by
  refine ⟨fun t ht => ofRecord_symbol (hfits t ht), fun t ht kind hkind => ?_,
    run_documentSymbols h hfits⟩
  obtain ⟨last, hlast⟩ := Version.exists_declared ht hkind
  obtain ⟨found, hfound, hfinds⟩ := Index.run_find hlegible hnamed kind t.indexName
  refine ⟨last, found, hlast, hfound,
    hfinds v.uri last (hfits last (Version.declared_eq_some hlast).1) (get?_of_rows h ?_)
      (get?_of_rows h ?_)⟩
  · refine (Version.get?_rows_iff (p := .names kind) fun value hvalue => ?_).2
      ⟨t, ht, hkind, rfl, rfl⟩
    obtain ⟨-, -, -, -, rfl⟩ := hvalue
    rfl
  · rw [Version.get?_rows_declaration, hlast]
    rfl

namespace Rows.Named
variable {s s' : Store}

theorem empty : Rows.Named .empty := nofun

theorem runAll (h : s.rows.Named) {ops : List Operation} (hrun : s.runAll ops = .ok s') :
    s'.rows.Named := by
  intro kind k value hget
  rcases Store.entered_of_runAll hrun hget with ⟨v, -, -, -, -, -, rfl⟩ | hold
  · exact ⟨v.uri, rfl⟩
  · exact h kind k value hold

end Rows.Named

/-- A document that is stored in any state of the index keeps the last declaration of every name,
and it keeps all its declarations just if no two of them share a table and a name. -/
theorem replaced_declarations {ops : List Operation} (hops : ∀ op ∈ ops, op.Fits) {s : Store}
    (hrun : Store.volatile.runAll ops = .ok s) {v : Version} (hfits : ∀ t ∈ v.symbols, t.Fits)
    (htables : ∀ t ∈ v.symbols, t.table?.isSome) :
    ∃ s', (Operation.replace v).run s = .ok s' ∧ KeepsLast v s'.rows ∧
      (KeepsAll v s'.rows ↔ v.NamesTell) := by
  have hlegible := Rows.Legible.empty.runAll (s := .volatile) hops hrun
  obtain ⟨s', hreplace⟩ := hlegible.exists_run_replace v
  have hrun' : s.runAll [.replace v] = .ok s' := by
    rw [Store.runAll, List.foldlM_cons, hreplace]
    rfl
  have hop : ∀ op ∈ [Operation.replace v], op.Fits := List.forall_mem_singleton.2 hfits
  have hkeeps := Store.keepsLast hreplace (hlegible.runAll hop hrun')
    ((Rows.Named.empty.runAll (s := .volatile) hrun).runAll hrun') hfits
  exact ⟨s', hreplace, hkeeps, hkeeps.keepsAll_iff htables⟩

/-- A function of this name, as it stands in a document in more than one place. -/
def redeclared (start stop : UInt32) : Symbol :=
  .function ⟨"f", .of "a.php" ⟨start, stop⟩, .empty, none⟩

/-- A function and a constant of one name are both kept, over a version with two functions. -/
theorem replaced_declarations_apart :
    let old : Version := .ofSymbols "a.php" [redeclared 6 20, redeclared 30 50]
    let v : Version := .ofSymbols "a.php"
      [redeclared 6 20, .constant ⟨true, "f", .of "a.php" ⟨22, 40⟩, none, .empty, none⟩]
    ∃ s s', Store.volatile.runAll [.replace old] = .ok s ∧ (Operation.replace v).run s = .ok s' ∧
      KeepsAll v s'.rows := by
  intro old v
  obtain ⟨s, hold⟩ := Rows.Legible.exists_run_replace (s := .volatile) .empty old
  have hrun : Store.volatile.runAll [.replace old] = .ok s := by
    rw [Store.runAll, List.foldlM_cons, hold]
    rfl
  have hop : ∀ op ∈ [Operation.replace old], op.Fits := by decide
  obtain ⟨s', hreplace, -, hkeeps⟩ := replaced_declarations (v := v) hop hrun (by decide)
    (by decide)
  exact ⟨s, s', hrun, hreplace, hkeeps.2 (by decide)⟩

/-- Of two functions of one name the first is not found, and one is listed. -/
theorem redeclaration_lost :
    let first := redeclared 6 20
    let second := redeclared 30 50
    let v : Version := .ofSymbols "a.php" [first, second]
    ∃ s, (Operation.replace v).run .volatile = .ok s ∧
      (Index.find .functions "f").run s.rows = .ok [second.normal] ∧
      (Index.documentSymbols "a.php").run s.rows = .ok [second.normal] ∧
      first.normal ≠ second.normal ∧ v.symbols.dedup.length = 2 := by
  intro first second v
  obtain ⟨s, hrun⟩ := Rows.Legible.exists_run_replace (s := .volatile) .empty v
  refine ⟨s, hrun, ?found, ?listed, by decide, by decide⟩
  case found =>
    have hread : ((Operation.replace v).run .volatile).bind (fun s =>
        ((KindTables.of .functions).names.find "f" >>= Query.forEach fun uri =>
          (KindTables.of .functions).declarations.get uri "f").run s.rows) =
            .ok [some second.normal] := by
      decide +kernel
    rw [hrun] at hread
    simp only [Except.bind] at hread
    have hfind := run_candidates s.rows ((KindTables.of .functions).names.find "f") fun uri =>
      (KindTables.of .functions).declarations.get uri "f"
    rw [hread] at hfind
    exact hfind.trans (congrArg Except.ok Symbol.candidates_singleton)
  case listed =>
    obtain ⟨listed, hlisted, hperm⟩ := Store.run_documentSymbols hrun (by decide)
    rw [show v.kept = [second] by decide, List.map_singleton, List.perm_singleton] at hperm
    exact hperm ▸ hlisted

end PhpIndex
