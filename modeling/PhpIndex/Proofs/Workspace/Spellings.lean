import PhpIndex.Proofs.Disk.Canonical
import PhpIndex.Proofs.Index.Declarations
import PhpIndex.Proofs.Workspace.Runs
import PhpIndex.Workspace.Questions

/-!
# Spellings of a path

A path as the user has spelled it and the canonical one lead to one file, so that both are of one
time and one text. Their documents are one only where their uris are; to bring one document up to
date leaves the declarations of all others.
Main statements: `Path.toUri_eq_toUri_iff`, `Host.lookup_of_canonical`,
`Workspace.documentSymbols_indexPath_of_ne`, `Workspace.exists_listed_indexPath`,
`Workspace.extends_load`.
-/
namespace PhpIndex

/-! ## Paths and their uris -/

namespace Path
variable {cwd path : String}

theorem nulFree_toUri (h : NulFree (join cwd path)) : NulFree (toUri cwd path) := by
  rw [toUri]
  refine IndexPart.nulFree_append (by decide) fun hzero => ?_
  rw [String.toList_ofList] at hzero
  obtain ⟨c, hc, heq⟩ := List.mem_map.1 hzero
  split_ifs at heq with hback
  · exact absurd heq (by decide)
  · exact h (heq ▸ hc)

/-- A path without backslashes is found again in its uri. -/
theorem ofUri?_toUri (h : '\\' ∉ (join cwd path).toList) :
    ofUri? (toUri cwd path) = some (join cwd path) := by
  have hkept : (join cwd path).toList.map (fun c => if c = '\\' then '/' else c) =
      (join cwd path).toList := by
    refine (List.map_congr_left fun c hc => ?_).trans (List.map_id _)
    have hne : c ≠ '\\' := fun heq => h (heq ▸ hc)
    exact if_neg hne
  rw [toUri, hkept, String.ofList_toList, ofUri?, Text.afterLead?, String.toList_append,
    if_pos (List.isPrefixOf_iff_prefix.2 (List.prefix_append _ _)), ← String.length_toList,
    List.drop_left, String.ofList_toList]

/-- Without backslashes, paths with one uri are one path. -/
theorem toUri_eq_toUri_iff {path' : String} (h : '\\' ∉ (join cwd path).toList)
    (h' : '\\' ∉ (join cwd path').toList) :
    toUri cwd path = toUri cwd path' ↔ join cwd path = join cwd path' := by
  refine ⟨fun heq => ?_, fun heq => by rw [toUri, toUri, heq]⟩
  have hpath := congrArg ofUri? heq
  rw [ofUri?_toUri h, ofUri?_toUri h'] at hpath
  exact Option.some.inj hpath

end Path

namespace Host
variable {h : Host} {file path : String}

theorem path_of_isAbsolute (hpath : Path.isAbsolute path = true) : h.path path = path := by
  rw [Host.path, Path.join_of_isAbsolute hpath, ite_self]

theorem path_eq_join (hfile : Path.isAbsolute (h.path file) = true) :
    h.path file = Path.join h.cwd file := by
  unfold Host.path at hfile ⊢
  split_ifs at hfile ⊢ with hempty
  · rw [String.isEmpty_iff.1 hempty] at hfile
    cases hfile
  · rfl

theorem path_join (hfile : Path.isAbsolute (h.path file) = true) :
    h.path (Path.join h.cwd file) = h.path file := by
  have hjoin := path_eq_join hfile
  exact (path_of_isAbsolute (hjoin ▸ hfile)).trans hjoin.symm

section Canonical
variable (hfile : h.disk.canonical (h.path file) = .ok path)
include hfile

theorem lookup_of_canonical : h.disk.lookup (h.path path) = h.disk.lookup (h.path file) := by
  rw [path_of_isAbsolute (Disk.isAbsolute_of_canonical hfile), Disk.lookup_canonical hfile]

theorem modified_of_canonical : h.modified path = h.modified file := by
  rw [Host.modified, Host.modified, Disk.modified, Disk.modified, lookup_of_canonical hfile]

theorem readText_of_canonical : h.readText path = h.readText file :=
  Disk.readText_congr (lookup_of_canonical hfile)

theorem canonical_of_canonical : h.disk.canonical (h.path path) = .ok path := by
  rw [Disk.canonical, lookup_of_canonical hfile]
  exact hfile

theorem exists_lookup : ∃ place entry, h.disk.lookup (h.path file) = .ok (place, entry) := by
  obtain ⟨place, entry, hlookup, -⟩ := Disk.canonical_eq_ok.1 hfile
  exact ⟨place, entry, hlookup⟩

theorem nulFree_uri : NulFree (Path.toUri h.cwd file) := by
  obtain ⟨place, entry, hlookup⟩ := exists_lookup hfile
  obtain ⟨hnul, habsolute⟩ := Disk.of_lookup_eq_ok hlookup
  exact Path.nulFree_toUri (path_eq_join habsolute ▸ hnul)

/-- Without backslashes in the path and in the links there are none in the canonical path. -/
theorem backslash_not_mem_of_canonical (hback : '\\' ∉ (Path.join h.cwd file).toList)
    (hlinks : ∀ place target, h.disk.link? place = some target → '\\' ∉ target.path.toList) :
    '\\' ∉ path.toList := by
  intro hmem
  obtain ⟨place, entry, hlookup⟩ := exists_lookup hfile
  have hjoin := path_eq_join (Disk.of_lookup_eq_ok hlookup).2
  rcases Disk.mem_of_mem_canonical hfile hmem with hpath | ⟨at_, target, hlink, htarget⟩
  · exact hback (hjoin ▸ hpath)
  · exact hlinks at_ target hlink htarget

end Canonical
end Host

/-! ## What the index holds of other documents -/

theorem Rows.DeclareAlike.run_documentSymbols_eq {rows rows' : Rows} {uri : String}
    (h : rows.DeclareAlike uri rows') : (Index.documentSymbols uri).run rows =
      (Index.documentSymbols uri).run rows' := by
  have hkind (kind : TableKind) : (Index.symbolsOfKind uri kind).run rows =
      (Index.symbolsOfKind uri kind).run rows' := by
    rw [Index.run_symbolsOfKind_eq, Index.run_symbolsOfKind_eq, h.scan_eq kind]
  simp only [Index.documentSymbols, Index.symbolsOf, Query.run_bind, Query.run_forEach, hkind,
    Query.run_pure]

theorem Index.run_documentSymbols_empty (uri : String) :
    (documentSymbols uri).run .empty = .ok [] := by
  have hnone : (symbolsOf uri).run .empty = .ok [] := rfl
  exact (Query.run_bind_eq_ok .empty hnone).trans (congrArg Except.ok List.mergeSort_nil)

namespace Workspace
variable {h : Host} {w : Workspace} {file uri : String}

/-- To bring a file up to date changes no declarations but those of its own uri. -/
theorem documentSymbols_indexPath_of_ne (hne : Path.toUri h.cwd file ≠ uri)
    (hfile : NulFree (Path.toUri h.cwd file)) (huri : NulFree uri) :
    (w.indexPath h file).1.documentSymbols uri = w.documentSymbols uri := by
  have hfollows := follows_indexPath (h := h) (w := w) (List.mem_singleton_self file)
  have halike : Rows.DeclareAlike uri (w.indexPath h file).1.store.rows w.store.rows := by
    intro kind k hk
    refine hfollows.rows.get?_of_others (fun op hop => ?_) huri hk False.elim
    obtain ⟨-, path, hpath, heq⟩ := uri_of_storesListed hop
    obtain rfl := List.mem_singleton.1 hpath
    exact ⟨heq ▸ hfile, heq ▸ hne⟩
  rw [documentSymbols, documentSymbols, hfollows.opened, ask, ask,
    halike.run_documentSymbols_eq]

theorem indexPath_congr {path : String} (hmodified : h.modified path = h.modified file)
    (hfound : ∃ modified, h.modified file = .ok modified)
    (huri : Path.toUri h.cwd path = Path.toUri h.cwd file) :
    w.indexPath h path = w.indexPath h file := by
  obtain ⟨modified, hfound⟩ := hfound
  rw [indexPath, indexPath, hmodified, hfound, huri]

end Workspace

/-! ## A file that can be read -/

namespace Workspace
variable {h : Host} {w : Workspace} {file text : String} {modified : Int64}

theorem exists_isCurrent (hrows : w.store.rows.Regular) (uri : String) (modified : Int64) :
    ∃ current, w.isCurrent uri modified = .ok current ∧
      (w.store.rows.get? (recordKey uri) = none → current = false) := by
  unfold isCurrent ask
  rw [hrows.run_document uri]
  refine ⟨_, rfl, fun hnone => ?_⟩
  rw [show w.store.rows.get? (IndexPart.documents.table.key (Bytes.ofText uri)) = none from hnone]
  rfl

section Readable
variable (hmodified : h.modified file = .ok modified) (htext : h.readText file = .ok text)
  (hback : '\\' ∉ (Path.join h.cwd file).toList)
include hmodified htext hback

theorem readFile_toUri : readFile h (Path.toUri h.cwd file) modified =
    .ok (h.parse (Path.toUri h.cwd file) text modified) := by
  have habsolute : Path.isAbsolute (h.path file) = true := by
    cases hlookup : h.disk.lookup (h.path file) with
    | error fault =>
      rw [Host.modified, Disk.modified, hlookup] at hmodified
      cases hmodified
    | ok found => exact (Disk.of_lookup_eq_ok hlookup).2
  have hread : h.readText (Path.join h.cwd file) = .ok text := by
    rw [Host.readText, Host.path_join habsolute]
    exact htext
  rw [readFile, Path.ofUri?_toUri hback]
  simp only [hread]

/-- What is done about a file that can be read. -/
theorem plan_of_readText (hrows : w.store.rows.Regular) (hopened : w.opened = .empty) :
    ∃ current, (w.store.rows.get? (recordKey (Path.toUri h.cwd file)) = none → current = false) ∧
      w.plan h file = .ok (if current then none
        else some (h.parse (Path.toUri h.cwd file) text modified)) := by
  obtain ⟨current, hcurrent, hnone⟩ := exists_isCurrent hrows (Path.toUri h.cwd file) modified
  have hclosed : w.isOpen (Path.toUri h.cwd file) = false := by
    rw [isOpen, hopened]
    rfl
  have hsettled : w.isSettled (Path.toUri h.cwd file) modified = .ok current := by
    rw [isSettled, hclosed]
    exact hcurrent
  refine ⟨current, hnone, ?_⟩
  unfold plan
  rw [hmodified]
  simp only [hsettled, readFile_toUri hmodified htext hback]
  cases current <;> rfl

/-- It is brought up to date whatever the index holds. -/
theorem exists_indexPath (hrows : w.store.rows.Regular) (hopened : w.opened = .empty) :
    ∃ w' done, w.indexPath h file = (w', .ok done) := by
  obtain ⟨current, -, hplan⟩ := plan_of_readText hmodified htext hback hrows hopened
  rw [indexPath_eq, hplan]
  cases current with
  | true => exact ⟨w, .unchanged, rfl⟩
  | false =>
    obtain ⟨s, hrun⟩ := hrows.exists_run (.replace
      ((h.parse (Path.toUri h.cwd file) text modified).version h.now))
    simp only [Bool.false_eq_true, if_false, operate, hrun]
    exact ⟨_, _, rfl⟩

/-- A file that the index does not hold is stored, and its declarations are listed then. -/
theorem exists_listed_indexPath (hrows : w.store.rows.Regular) (hopened : w.opened = .empty)
    (habsent : w.store.rows.get? (recordKey (Path.toUri h.cwd file)) = none)
    (hregular : (h.parse (Path.toUri h.cwd file) text 0).Regular) :
    ∃ w' done listed, w.indexPath h file = (w', .ok done) ∧
      w'.documentSymbols (Path.toUri h.cwd file) = .ok listed ∧
      listed.Perm (((h.parse (Path.toUri h.cwd file) text 0).version 0).kept.map
        Symbol.normal) := by
  obtain ⟨current, hcurrent, hplan⟩ := plan_of_readText hmodified htext hback hrows hopened
  obtain rfl := hcurrent habsent
  let d := h.parse (Path.toUri h.cwd file) text modified
  obtain ⟨s, hrun⟩ := hrows.exists_run (.replace (d.version h.now))
  obtain ⟨listed, hlisted, hperm⟩ := Store.run_documentSymbols hrun fun t ht =>
    (hregular.symbols t ht).1
  refine ⟨{ w with store := s }, .indexed d.symbols.length, listed, ?_, ?_, hperm⟩
  · rw [indexPath_eq, hplan]
    simp only [Bool.false_eq_true, if_false, operate, hrun, d]
    rfl
  · rw [documentSymbols, hopened, ask]
    exact congrArg (Except.mapError _) hlisted

end Readable
end Workspace

/-! ## The index of a workspace that is opened -/

theorem Workspace.extends_load (h : Host) (settings : Settings) :
    h.disk.Extends (load h settings).1 := by
  unfold load
  split_ifs
  · exact .refl _
  · split
    · exact .refl _
    next disk hmake =>
      simp only
      split <;> exact Disk.extends_makeDirectories hmake

theorem Workspace.opened_of_load {h : Host} {settings : Settings} {w : Workspace}
    (hload : (load h settings).2 = .ok w) : w.opened = .empty := by
  unfold load at hload
  split_ifs at hload
  · cases hload
    rfl
  · split at hload
    · cases hload
    · simp only at hload
      split at hload <;> cases hload
      rfl

/-- An index that was not kept before is empty. -/
theorem Workspace.load_of_new {h : Host} {settings : Settings} {disk : Disk}
    (hpersist : settings.index.persist = true)
    (hmade : h.disk.makeDirectories (h.path settings.indexDirectory) h.now = .ok disk)
    (hnone : readSnapshot { h with disk } (snapshotPath settings) = .ok none) :
    load h settings = (disk, .ok ⟨settings, ⟨.empty, true, false⟩, .empty⟩) := by
  unfold load
  rw [hpersist, hmade]
  simp only [Bool.not_true, Bool.false_eq_true, if_false, hnone]
  rfl

end PhpIndex
