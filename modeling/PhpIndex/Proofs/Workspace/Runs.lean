import PhpIndex.Proofs.Workspace.Buffers
import PhpIndex.Proofs.Workspace.Directories

/-!
# What a run leaves of a document

The run over a directory brings the document of each file up to date by itself: what the other
files make of the store changes neither what is planned for the document nor its rows. Then the
documents below the directory go that were not listed and are not open. That the file is there is
no reason to keep a document: it may not have been listed. Nothing else is asked of the list, so
that it may come from any walk through the directory.
Main statements: `Workspace.isUpdated_foldl`, `Workspace.removeMissing_ok`,
`unlisted_documents_removed`, `hidden_document_removed`.
-/
namespace PhpIndex

/-- Whether a document can be stored so that its rows are told from those of others and read
back. -/
structure Document.Regular (d : Document) : Prop where
  uri : NulFree d.uri
  symbols : ∀ s ∈ d.symbols, s.Fits ∧ s.Plain
  /-- The time of indexing has no part in it. -/
  record : (d.record 0).Fits

instance (d : Document) : Decidable d.Regular :=
  decidable_of_iff (NulFree d.uri ∧ (∀ s ∈ d.symbols, s.Fits ∧ s.Plain) ∧ (d.record 0).Fits)
    ⟨fun h => ⟨h.1, h.2.1, h.2.2⟩, fun h => ⟨h.uri, h.symbols, h.record⟩⟩

theorem Document.Regular.replace {d : Document} (h : d.Regular) (now : Int64) :
    (Operation.replace (d.version now)).Regular := by
  refine ⟨h.uri, h.symbols, fun v hv => ?_⟩
  cases hv
  exact h.record

namespace Workspace
variable {h : Host} {w w' : Workspace} {path uri root : String} {files : List String}

/-! ## One file -/

theorem isSettled_congr (hopened : w'.opened = w.opened)
    (hrecord : w'.store.rows.get? (recordKey uri) = w.store.rows.get? (recordKey uri))
    (modified : Int64) : w'.isSettled uri modified = w.isSettled uri modified := by
  rw [isSettled, isOpen, hopened, isCurrent, ask, Rows.run_document_congr hrecord]
  rfl

theorem plan_congr (hopened : w'.opened = w.opened)
    (hrecord : w'.store.rows.get? (recordKey (Path.toUri h.cwd path)) =
      w.store.rows.get? (recordKey (Path.toUri h.cwd path))) : w'.plan h path = w.plan h path := by
  simp only [plan, isSettled_congr hopened hrecord]

/-- Whether the rows of a file's document are those that it has when it was brought up to date. -/
def IsUpdated (h : Host) (w : Workspace) (path : String) (rows : Rows) : Prop :=
  match w.plan h path with
  | .ok (some d) => ∃ s, (Operation.replace (d.version h.now)).run w.store = .ok s ∧
      rows.AgreeOn (Path.toUri h.cwd path) s.rows
  | _ => rows.AgreeOn (Path.toUri h.cwd path) w.store.rows

theorem isUpdated_of_agreeOn {rows rows' : Rows}
    (hagree : rows'.AgreeOn (Path.toUri h.cwd path) rows) (hupdated : w.IsUpdated h path rows) :
    w.IsUpdated h path rows' := by
  unfold IsUpdated at hupdated ⊢
  split at hupdated
  · obtain ⟨s, hrun, hrows⟩ := hupdated
    exact ⟨s, hrun, hagree.trans hrows⟩
  · exact hagree.trans hupdated

/-- What other documents have become makes no difference. -/
theorem isUpdated_of_other {rows : Rows} (hw : w.store.rows.Regular)
    (hopened : w'.opened = w.opened)
    (hagree : w'.store.rows.AgreeOn (Path.toUri h.cwd path) w.store.rows)
    (hupdated : w'.IsUpdated h path rows) : w.IsUpdated h path rows := by
  unfold IsUpdated at hupdated ⊢
  rw [plan_congr hopened (hagree _ (owned_recordKey _))] at hupdated
  split at hupdated
  · next d hplan =>
    obtain ⟨s', hrun', hrows⟩ := hupdated
    obtain ⟨s, hrun⟩ := hw.exists_run (.replace (d.version h.now))
    have huri : (Operation.replace (d.version h.now)).uri = Path.toUri h.cwd path :=
      uri_of_plan hplan
    refine ⟨s, hrun, hrows.trans fun key hkey => ?_⟩
    exact Store.get?_run_congr (huri ▸ hagree) hrun' hrun (hagree key hkey)
  · exact hupdated.trans hagree

theorem isUpdated_indexPath (hw : w.store.rows.Regular) :
    w.IsUpdated h path (w.indexPath h path).1.store.rows := by
  rw [IsUpdated, indexPath_eq]
  rcases w.plan h path with e | _ | d
  · exact .refl _ _
  · exact .refl _ _
  · obtain ⟨s, hrun⟩ := hw.exists_run (.replace (d.version h.now))
    refine ⟨s, hrun, ?_⟩
    simp only [operate, hrun]
    exact .refl _ _

/-! ## All files -/

/-- Whether what may be read of the files can be stored for them. -/
def FilesRegular (h : Host) (files : List String) : Prop :=
  ∀ path ∈ files, NulFree (Path.toUri h.cwd path) ∧ ∀ modified d,
    readFile h (Path.toUri h.cwd path) modified = .ok d → d.Regular

theorem regular_parse {text : String} (modified : Int64) (hd : (h.parse uri text 0).Regular) :
    (h.parse uri text modified).Regular := by
  unfold Host.parse Document.ofTree at hd ⊢
  exact ⟨hd.uri, hd.symbols, hd.record⟩

/-- It is enough to look at the texts: a document is the same at all times of its file. -/
theorem filesRegular_of_texts (hfiles : ∀ path ∈ files, NulFree (Path.toUri h.cwd path) ∧
    ∀ d ∈ (readFile h (Path.toUri h.cwd path) 0).toOption, d.Regular) : FilesRegular h files := by
  intro path hpath
  obtain ⟨huri, hread₀⟩ := hfiles path hpath
  refine ⟨huri, fun modified d hread => ?_⟩
  unfold readFile at hread₀ hread
  generalize Path.ofUri? (Path.toUri h.cwd path) = file? at hread₀ hread
  cases file? with
  | none => cases hread
  | some file =>
    simp only at hread₀ hread
    generalize h.readText file = text? at hread₀ hread
    cases text? with
    | error fault => cases hread
    | ok text =>
      cases hread
      exact regular_parse modified (hread₀ _ rfl)

theorem FilesRegular.mono {rest : List String} (hfiles : FilesRegular h files)
    (hsub : rest ⊆ files) : FilesRegular h rest := fun path hpath => hfiles path (hsub hpath)

theorem regular_of_storesListed {op : Operation} (hfiles : FilesRegular h files)
    (hop : StoresListed h w files op) : op.Regular := by
  obtain ⟨path, hpath, modified, d, hread, -, rfl⟩ := hop
  exact ((hfiles path hpath).2 modified d hread).replace h.now

theorem uri_of_storesListed {op : Operation} (hop : StoresListed h w files op) :
    w.isOpen op.uri = false ∧ ∃ path ∈ files, op.uri = Path.toUri h.cwd path := by
  obtain ⟨path, hpath, modified, d, hread, hclosed, rfl⟩ := hop
  exact ⟨hclosed, path, hpath, (uri_readFile hread).1⟩

theorem regular_foldl (hw : w.store.rows.Regular) (hfiles : FilesRegular h files)
    (report : IndexReport) :
    (files.foldl (indexCounted h) (w, report)).1.store.rows.Regular :=
  (follows_foldl files report).rows.regular hw fun _ => regular_of_storesListed hfiles

/-- Files of other documents leave the rows of a document. -/
theorem agreeOn_foldl (hw : w.store.rows.Regular) (hfiles : FilesRegular h files)
    (report : IndexReport) (huri : NulFree uri)
    (hothers : w.isOpen uri = true ∨ ∀ path ∈ files, Path.toUri h.cwd path ≠ uri) :
    Rows.AgreeOn uri (files.foldl (indexCounted h) (w, report)).1.store.rows w.store.rows := by
  refine (follows_foldl files report).rows.agreeOn hw (fun _ => regular_of_storesListed hfiles)
    (fun op hop => ?_) huri
  obtain ⟨hclosed, path, hpath, heq⟩ := uri_of_storesListed hop
  rintro rfl
  rcases hothers with hopen | hothers
  · exact Bool.false_ne_true (hclosed.symm.trans hopen)
  · exact hothers path hpath heq.symm

theorem isUpdated_foldl (hw : w.store.rows.Regular) (hfiles : FilesRegular h files)
    (hone : files.filter (fun p => Path.toUri h.cwd p = Path.toUri h.cwd path) = [path])
    (report : IndexReport) :
    w.IsUpdated h path (files.foldl (indexCounted h) (w, report)).1.store.rows := by
  obtain ⟨front, back, rfl, hfront, -, hback⟩ := List.filter_eq_cons_iff.1 hone
  have hpath : path ∈ front ++ path :: back := List.mem_append_right _ List.mem_cons_self
  have huri : NulFree (Path.toUri h.cwd path) := (hfiles path hpath).1
  have hfrontFiles := hfiles.mono (List.subset_append_left front (path :: back))
  have hbackFiles := (hfiles.mono (List.subset_append_right front _)).mono
    (List.subset_cons_self path back)
  have hother₁ : ∀ p ∈ front, Path.toUri h.cwd p ≠ Path.toUri h.cwd path := fun p hp heq =>
    hfront p hp (decide_eq_true heq)
  have hother₂ : ∀ p ∈ back, Path.toUri h.cwd p ≠ Path.toUri h.cwd path := fun p hp heq =>
    List.filter_eq_nil_iff.1 hback p hp (decide_eq_true heq)
  rw [List.foldl_append, List.foldl_cons]
  have hbefore := agreeOn_foldl hw hfrontFiles report huri (.inr hother₁)
  have hregular := regular_foldl hw hfrontFiles report
  have hopened := (follows_foldl (h := h) (w := w) front report).opened
  generalize front.foldl (indexCounted h) (w, report) = acc at hbefore hregular hopened ⊢
  have hupdated : w.IsUpdated h path (indexCounted h acc path).1.store.rows := by
    rw [fst_indexCounted]
    exact isUpdated_of_other hw hopened hbefore (isUpdated_indexPath hregular)
  have hregular' : (indexCounted h acc path).1.store.rows.Regular := by
    rw [fst_indexCounted]
    exact (follows_indexPath (List.mem_singleton_self path)).rows.regular hregular fun _ =>
      regular_of_storesListed (hfiles.mono (List.cons_subset.2 ⟨hpath, List.nil_subset _⟩))
  generalize indexCounted h acc path = acc₂ at hupdated hregular' ⊢
  obtain ⟨w₂, report₂⟩ := acc₂
  exact isUpdated_of_agreeOn (agreeOn_foldl hregular' hbackFiles report₂ huri (.inr hother₂))
    hupdated

theorem hasDocument_foldl (hw : w.store.rows.HasDocument uri) (files : List String)
    (report : IndexReport) :
    (files.foldl (indexCounted h) (w, report)).1.store.rows.HasDocument uri := by
  have hleads := (follows_foldl (h := h) (w := w) files report).rows
  generalize (files.foldl (indexCounted h) (w, report)).1.store.rows = rows at hleads ⊢
  induction hleads with
  | refl => exact hw
  | step _ hop hrun ih =>
    obtain ⟨_, -, _, _, -, -, rfl⟩ := hop
    exact Store.hasDocument_of_run_replace hrun ih

/-! ## What is missing -/

theorem removeAll_ok {uris : List String} (hw : w.store.rows.Regular)
    (hstored : ∀ uri ∈ uris, w.store.rows.HasDocument uri) (hdistinct : uris.Nodup) (count : Nat) :
    ∃ t, w.store.runAll (uris.map .remove) = .ok t ∧
      w.removeAll count uris = ({ w with store := t }, .ok (count + uris.length)) := by
  induction uris generalizing w count with
  | nil => exact ⟨w.store, rfl, rfl⟩
  | cons uri rest ih =>
    obtain ⟨huri, hrest⟩ := List.forall_mem_cons.1 hstored
    obtain ⟨hnot, hdistinct⟩ := List.nodup_cons.1 hdistinct
    have hremoval := hw.isFiled.regular_remove huri
    obtain ⟨s, hrun, hremove⟩ := hw.exists_removeDocument huri
    have hleft : ∀ u ∈ rest, s.rows.HasDocument u := by
      intro u hu
      have hne : uri ≠ u := fun heq => hnot (heq ▸ hu)
      have hkept := Store.agreeOn_run_of_ne hrun hw.plain trivial
        (hw.isFiled.nulFree_of_hasDocument (hrest u hu)) hremoval.1 hne (recordKey u)
        (owned_recordKey u)
      rw [Rows.HasDocument, hkept]
      exact hrest u hu
    obtain ⟨t, hall, heq⟩ :=
      ih (w := { w with store := s }) (hw.run hremoval hrun) hleft hdistinct (count + 1)
    refine ⟨t, ?_, ?_⟩
    · rw [List.map_cons, Store.runAll, List.foldlM_cons, hrun]
      exact hall
    · have hfirst : w.remove uri = ({ w with store := s }, .ok true) := by
        rw [remove, hremove]
      rw [removeAll, hfirst]
      simp only [if_true]
      rw [heq, List.length_cons, Nat.add_right_comm, Nat.add_assoc]

theorem hasDocument_of_mem_missing {seen : List String} (hw : w.store.rows.Filed)
    (huri : uri ∈ missing h w root seen) : w.store.rows.HasDocument uri :=
  hw.mem_documentUris.1 (mem_missing.1 huri).1

/-- All that is missing is removed and counted. -/
theorem removeMissing_ok (hw : w.store.rows.Regular) (root : String) (seen : List String) :
    ∃ t, w.store.runAll ((missing h w root seen).map .remove) = .ok t ∧
      w.removeMissing h root seen =
        ({ w with store := t }, .ok (missing h w root seen).length) := by
  obtain ⟨t, hrun, heq⟩ := removeAll_ok hw (fun uri => hasDocument_of_mem_missing hw.isFiled)
    (hw.isFiled.nodup_documentUris.filter _) 0
  refine ⟨t, hrun, ?_⟩
  rw [removeMissing_eq, heq, Nat.zero_add]

theorem regular_removals {seen : List String} (hw : w.store.rows.Filed) :
    ∀ op ∈ (missing h w root seen).map Operation.remove, op.Regular := by
  intro op hop
  obtain ⟨uri, huri, rfl⟩ := List.mem_map.1 hop
  exact hw.regular_remove (hasDocument_of_mem_missing hw huri)

/-- When all files were brought up to date, what is missing is removed, and the store saved. -/
theorem finishIndexing_eq (hw : w.store.rows.Regular) (root : String) (files : List String)
    (report : IndexReport) :
    ∃ t, w.store.runAll ((missing h w root (files.map (Path.toUri h.cwd))).map .remove) = .ok t ∧
      w.finishIndexing h report root files = ((flush h { w with store := t }).1,
        (flush h { w with store := t }).2.1, (flush h { w with store := t }).2.2.map fun _ =>
          { report with removed := (missing h w root (files.map (Path.toUri h.cwd))).length }) := by
  obtain ⟨t, hrun, heq⟩ := removeMissing_ok (h := h) hw root (files.map (Path.toUri h.cwd))
  refine ⟨t, hrun, ?_⟩
  rw [finishIndexing, heq]

theorem rows_finishIndexing (hw : w.store.rows.Regular) (root : String) (files : List String)
    (report : IndexReport) :
    ∃ t, w.store.runAll ((missing h w root (files.map (Path.toUri h.cwd))).map .remove) = .ok t ∧
      (w.finishIndexing h report root files).1.store.rows = t.rows := by
  obtain ⟨t, hrun, heq⟩ := finishIndexing_eq (h := h) hw root files report
  refine ⟨t, hrun, ?_⟩
  rw [heq]
  exact (flush_eq h _).2.2

theorem agreeOn_finishIndexing (hw : w.store.rows.Regular) (report : IndexReport)
    (huri : NulFree uri) (hkept : ¬ IsMissing h w root (files.map (Path.toUri h.cwd)) uri) :
    Rows.AgreeOn uri (w.finishIndexing h report root files).1.store.rows w.store.rows := by
  obtain ⟨t, hrun, hrows⟩ := rows_finishIndexing (h := h) hw root files report
  rw [hrows]
  intro key hkey
  refine Store.get?_runAll_of_not_owned hw (regular_removals hw.isFiled) hrun fun op hop hown => ?_
  have heq := hown.unique (regular_removals hw.isFiled op hop).1 huri hkey
  obtain ⟨missed, hmissed, rfl⟩ := List.mem_map.1 hop
  obtain rfl : missed = uri := heq
  exact hkept (mem_missing.1 hmissed)

theorem hasDocument_finishIndexing_iff (hw : w.store.rows.Regular) (report : IndexReport)
    (hstored : w.store.rows.HasDocument uri) :
    (w.finishIndexing h report root files).1.store.rows.HasDocument uri ↔
      ¬ IsMissing h w root (files.map (Path.toUri h.cwd)) uri := by
  refine ⟨fun hleft hmissing => ?_, fun hkept => ?_⟩
  · obtain ⟨t, hrun, hrows⟩ :=
      rows_finishIndexing (h := h) hw root files report
    obtain ⟨alone, halone⟩ := hw.exists_run (.remove uri)
    have hdistinct : (((missing h w root (files.map (Path.toUri h.cwd))).map
        Operation.remove).map Operation.uri).Nodup := by
      rw [List.map_map]
      exact (List.map_id' _).symm ▸ hw.isFiled.nodup_documentUris.filter _
    have hgone := Store.get?_runAll_of_owned hw (regular_removals hw.isFiled) hdistinct hrun
      (List.mem_map_of_mem (mem_missing.2 hmissing)) halone (owned_recordKey uri)
    rw [hrows, Rows.HasDocument, hgone] at hleft
    exact Store.not_hasDocument_of_run_remove halone hleft
  · have hsame := agreeOn_finishIndexing hw report (hw.isFiled.nulFree_of_hasDocument hstored) hkept
      (recordKey uri) (owned_recordKey uri)
    rw [Rows.HasDocument, hsame]
    exact hstored

/-! ## The run as a whole -/

section Listed
variable (hw : w.store.rows.Regular) (hfiles : FilesRegular h files)
include hw hfiles

theorem isUpdated_indexListed
    (hone : files.filter (fun p => Path.toUri h.cwd p = Path.toUri h.cwd path) = [path]) :
    w.IsUpdated h path (w.indexListed h root files).1.store.rows := by
  have hpath : path ∈ files := (List.mem_filter.1 (hone ▸ List.mem_singleton_self path)).1
  have hseen := List.mem_map_of_mem (f := Path.toUri h.cwd) hpath
  rw [indexListed_eq]
  refine isUpdated_of_agreeOn ?_ (isUpdated_foldl hw hfiles hone {})
  exact agreeOn_finishIndexing (regular_foldl hw hfiles {}) _ (hfiles path hpath).1
    fun hmissing => hmissing.2.2.1 hseen

theorem agreeOn_indexListed (huri : NulFree uri)
    (hothers : w.isOpen uri = true ∨ Text.startsWith (uriLead h root) uri = false ∧
      uri ∉ files.map (Path.toUri h.cwd)) :
    Rows.AgreeOn uri (w.indexListed h root files).1.store.rows w.store.rows := by
  have hopen := (follows_foldl (h := h) (w := w) files {}).isOpen uri
  rw [indexListed_eq]
  refine (agreeOn_finishIndexing (regular_foldl hw hfiles {}) _ huri fun hmissing => ?_).trans
    (agreeOn_foldl hw hfiles {} huri (hothers.imp_right fun hout path hpath heq => ?_))
  · obtain ⟨-, hbelow, -, hclosed⟩ := hmissing
    rcases hothers with hopened | ⟨hout, -⟩
    · rw [hopen, hopened] at hclosed
      cases hclosed
    · rw [hout] at hbelow
      cases hbelow
  · exact hout.2 (heq ▸ List.mem_map_of_mem hpath)

theorem hasDocument_indexListed_iff (hstored : w.store.rows.HasDocument uri) :
    (w.indexListed h root files).1.store.rows.HasDocument uri ↔
      ¬ (Text.startsWith (uriLead h root) uri = true ∧ uri ∉ files.map (Path.toUri h.cwd) ∧
        w.isOpen uri = false) := by
  have hregular := regular_foldl hw hfiles {}
  have hopen := (follows_foldl (h := h) (w := w) files {}).isOpen uri
  have hkept := hasDocument_foldl (h := h) hstored files {}
  rw [indexListed_eq]
  refine (hasDocument_finishIndexing_iff hregular _ hkept).trans (not_congr ?_)
  rw [IsMissing, hopen, hregular.isFiled.mem_documentUris, and_iff_right hkept]

end Listed
end Workspace

open Workspace in
/-- Whatever files the walk lists, a document is removed just if it is below the directory, was not
listed and is not open, whether or not its file is there. Documents that are open, and those
elsewhere, keep all rows; a file that alone has its uri has its document brought up to date. -/
theorem unlisted_documents_removed {h : Host} {w : Workspace} (root : String) {files : List String}
    (hrows : w.store.rows.Reached) (hfiles : FilesRegular h files) :
    let seen := files.map (Path.toUri h.cwd)
    let rows := w.store.rows
    let rows' := (w.indexListed h root files).1.store.rows
    (∀ uri, rows.HasDocument uri → (¬ rows'.HasDocument uri ↔
      Text.startsWith (uriLead h root) uri = true ∧ uri ∉ seen ∧ w.isOpen uri = false)) ∧
    (∀ uri, NulFree uri → (w.isOpen uri = true ∨
      Text.startsWith (uriLead h root) uri = false ∧ uri ∉ seen) → rows'.AgreeOn uri rows) ∧
    ∀ path, files.filter (fun p => Path.toUri h.cwd p = Path.toUri h.cwd path) = [path] →
      w.IsUpdated h path rows' := by
  intro seen rows rows'
  have hw := hrows.regular
  refine ⟨fun uri hstored => ?_, fun uri huri hothers => ?_, fun path hone => ?_⟩
  · exact (not_congr (hasDocument_indexListed_iff hw hfiles hstored)).trans not_not
  · exact agreeOn_indexListed hw hfiles huri hothers
  · exact isUpdated_indexListed hw hfiles hone

theorem unlisted_documents_removed_of_missing :
    let h := Host.withFile "/a.php" "<?php" 5
    let w := (Workspace.blank.indexDocument .blank (functionDocument "file:///b.php" "g")).1
    let rows' := (w.indexDirectory h "/").1.store.rows
    w.store.rows.HasDocument "file:///b.php" ∧ ¬ rows'.HasDocument "file:///b.php" ∧
      w.IsUpdated h "/a.php" rows' := by
  intro h w rows'
  have hrows : w.store.rows.Reached := by
    refine ⟨[.replace ((functionDocument "file:///b.php" "g").version 0)], w.store, ?_, ?_, rfl⟩
    · rintro op hop
      obtain rfl := List.mem_singleton.1 hop
      exact ⟨by decide, by decide, by rintro v hv; cases hv; decide +kernel⟩
    · decide +kernel
  have hlist : Workspace.filesToIndex h w.settings "/" = ["/a.php"] := by decide +kernel
  have hrun : w.indexDirectory h "/" = w.indexListed h "/" ["/a.php"] :=
    congrArg (w.indexListed h "/") hlist
  have hfiles : Workspace.FilesRegular h ["/a.php"] :=
    Workspace.filesRegular_of_texts (by decide +kernel)
  obtain ⟨hremoved, -, hupdated⟩ := unlisted_documents_removed "/" hrows hfiles
  rw [← hrun] at hremoved hupdated
  have hstored : w.store.rows.HasDocument "file:///b.php" := by decide +kernel
  refine ⟨hstored, (hremoved _ hstored).2 ⟨?_, ?_, ?_⟩, hupdated "/a.php" ?_⟩
  · decide +kernel
  · decide +kernel
  · decide +kernel
  · exact List.filter_cons_of_pos (decide_eq_true rfl)

/-- A file that was indexed by itself is there and has not changed, and its document is removed
since files whose names begin with a dot are not listed. -/
theorem hidden_document_removed :
    let h := Host.withFile "/.a.php" "<?php" 5
    let w := (Workspace.blank.indexPath h "/.a.php").1
    let w' := (w.indexDirectory h "/").1
    Path.ofUri? "file:///.a.php" = some "/.a.php" ∧ h.modified "/.a.php" = .ok 5 ∧
      w.isOpen "file:///.a.php" = false ∧ w.store.rows.HasDocument "file:///.a.php" ∧
      ¬ w'.store.rows.HasDocument "file:///.a.php" := by
  decide +kernel

end PhpIndex
