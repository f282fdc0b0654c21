import PhpIndex.Proofs.Disk.Canonical
import PhpIndex.Proofs.Workspace.Schedules
import PhpIndex.Proofs.Workspace.Syncs

/-!
# Runs that lead to the same

All runs over a directory leave the same rows, except for the times of indexing, and answer the same
counters, whatever the order in which the files' tasks take their steps. A further run finds every
file done and nothing missing, so it leaves the store as it is.
Main statements: `Indexed.alike`, `Alike.finishIndexing`, `plan_again`, `directory_runs_alike`,
`directory_runs_unlike`.
-/
namespace PhpIndex
open scoped List

namespace Workspace

/-! ## When all files are done -/

/-- Whether the workspaces are the same, except for when documents were indexed. -/
structure Alike (w₁ w₂ : Workspace) : Prop where
  settings : w₁.settings = w₂.settings
  opened : w₁.opened = w₂.opened
  rows : w₁.store.rows.SameButTime w₂.store.rows
  dirty : w₁.store.dirty = w₂.store.dirty
  persistent : w₁.store.persistent = w₂.store.persistent

section Indexed
variable {h : Host} {w w₁ w₂ : Workspace} {files : List String} {path : String} {key : Bytes}

theorem Indexed.regular (hi : Indexed h w files w₁) (hw : w.store.rows.Regular) :
    w₁.store.rows.Regular :=
  hi.follows.rows.regular hw fun _ hop => hop.1

theorem Indexed.get?_of_not_owned (hi : Indexed h w files w₁) (hw : w.store.rows.Regular)
    (hkey : ∀ path ∈ files, ¬ Owned (Path.toUri h.cwd path) key) :
    w₁.store.rows.get? key = w.store.rows.get? key := by
  refine hi.follows.rows.get?_of_not_owned hw (fun _ hop => hop.1) fun op hop hown => ?_
  obtain ⟨-, path, hpath, huri⟩ := hop
  exact hkey path hpath (huri ▸ hown)

/-- When a file was brought up to date shows in the time of its record only. -/
theorem sameAt_of_isUpdated {now now' : Int64} {rows rows' : Rows}
    (hrows : w.IsUpdated { h with now } path rows)
    (hrows' : w.IsUpdated { h with now := now' } path rows')
    (hkey : Owned (Path.toUri h.cwd path) key) : rows.SameAt rows' key := by
  unfold IsUpdated at hrows hrows'
  rw [plan_at_time] at hrows hrows'
  split at hrows
  · next d hplan =>
    rw [hplan] at hrows'
    obtain ⟨s, hrun, hagree⟩ := hrows
    obtain ⟨s', hrun', hagree'⟩ := hrows'
    have hsame := Store.sameButTime_of_run_replace (v := d.version now) hrun hrun'
    rw [Rows.SameAt, hagree key hkey, hagree' key hkey]
    exact hsame key
  · next hnone =>
    have hagree' : rows'.AgreeOn (Path.toUri h.cwd path) w.store.rows := by
      split at hrows'
      · next d hplan => exact absurd hplan (hnone d)
      · exact hrows'
    exact .inl ((hrows key hkey).trans (hagree' key hkey).symm)

/-- All orders of the files lead to the same. -/
theorem Indexed.alike (h₁ : Indexed h w files w₁) (h₂ : Indexed h w files w₂)
    (hw : w.store.rows.Regular) : Alike w₁ w₂ where
  settings := h₁.follows.settings.trans h₂.follows.settings.symm
  opened := h₁.follows.opened.trans h₂.follows.opened.symm
  rows key := by
    by_cases hkey : ∃ path ∈ files, Owned (Path.toUri h.cwd path) key
    · obtain ⟨path, hpath, hown⟩ := hkey
      obtain ⟨now, hrows⟩ := h₁.updated path hpath
      obtain ⟨now', hrows'⟩ := h₂.updated path hpath
      exact sameAt_of_isUpdated hrows hrows' hown
    · have hnone : ∀ path ∈ files, ¬ Owned (Path.toUri h.cwd path) key :=
        fun path hpath hown => hkey ⟨path, hpath, hown⟩
      exact .inl ((h₁.get?_of_not_owned hw hnone).trans (h₂.get?_of_not_owned hw hnone).symm)
  dirty := h₁.dirty.trans h₂.dirty.symm
  persistent := h₁.persistent.trans h₂.persistent.symm

end Indexed

/-! ## Saving -/

section Saving
variable {h : Host} {w w₁ w₂ : Workspace}

/-- Whether a file can be written does not depend on what is to be written. -/
theorem snd_writeSnapshot (h : Host) (path : String) (bytes bytes' : Bytes) :
    (writeSnapshot h path bytes).2 = (writeSnapshot h path bytes').2 := by
  have hall := Disk.map_replace h.disk (h.path path) bytes bytes' h.now
  unfold writeSnapshot
  generalize h.disk.replace (h.path path) bytes h.now = x at hall ⊢
  generalize h.disk.replace (h.path path) bytes' h.now = y at hall ⊢
  cases x <;> cases y <;> cases hall <;> rfl

theorem flush_of_saved (hsaved : (w.store.persistent && w.store.dirty) = false) :
    w.flush h = (w, h.disk, .ok ()) := by
  simp only [flush, Store.flush, Store.flushWith, Store.pending?, hsaved, Bool.false_eq_true,
    if_false]
  rfl

theorem flush_of_unsaved (hunsaved : (w.store.persistent && w.store.dirty) = true) :
    w.flush h =
      match writeSnapshot h (snapshotPath w.settings) (Snapshot.write w.store.rows) with
      | (disk, .ok ()) => ({ w with store := w.store.saved }, disk, .ok ())
      | (disk, .error fault) => (w, disk, .error (.store (.file fault))) := by
  simp only [flush, Store.flush, Store.flushWith, Store.pending?, hunsaved, if_true,
    Snapshot.write]
  rcases hwrite : writeSnapshot h (snapshotPath w.settings)
    (Snapshot.writeWith Lz4.pack w.store.rows) with ⟨disk, fault | _⟩
  · simp only [bind, StateT.bind, hwrite]
    rfl
  · simp only [bind, StateT.bind, hwrite]
    rfl

/-- A workspace that was saved has nothing left to save. -/
theorem saved_of_flush (hdone : (w.flush h).2.2 = .ok ()) :
    ((w.flush h).1.store.persistent && (w.flush h).1.store.dirty) = false := by
  cases hpending : w.store.persistent && w.store.dirty with
  | false => rw [flush_of_saved hpending, hpending]
  | true =>
    rw [flush_of_unsaved hpending] at hdone ⊢
    generalize writeSnapshot h _ _ = written at hdone ⊢
    rcases written with ⟨disk, fault | _⟩
    · cases hdone
    · rw [Store.saved, if_pos (Bool.and_eq_true_iff.1 hpending).1]
      exact Bool.and_false _

theorem of_flush_eq_error {e : IndexError} (hdone : (w.flush h).2.2 = .error e) :
    w.store.persistent = true ∧ ∃ fault, e = .store (.file fault) := by
  cases hpending : w.store.persistent && w.store.dirty with
  | false =>
    rw [flush_of_saved hpending] at hdone
    cases hdone
  | true =>
    rw [flush_of_unsaved hpending] at hdone
    generalize writeSnapshot h _ _ = written at hdone
    rcases written with ⟨disk, fault | _⟩
    · cases hdone
      exact ⟨(Bool.and_eq_true_iff.1 hpending).1, fault, rfl⟩
    · cases hdone

theorem Alike.done_flush (ha : Alike w₁ w₂) : (w₁.flush h).2.2 = (w₂.flush h).2.2 := by
  cases hpending : w₁.store.persistent && w₁.store.dirty with
  | false =>
    have hpending₂ := hpending
    rw [ha.persistent, ha.dirty] at hpending₂
    rw [flush_of_saved hpending, flush_of_saved hpending₂]
  | true =>
    have hpending₂ := hpending
    rw [ha.persistent, ha.dirty] at hpending₂
    have hwritten := snd_writeSnapshot h (snapshotPath w₂.settings)
      (Snapshot.write w₁.store.rows) (Snapshot.write w₂.store.rows)
    rw [flush_of_unsaved hpending, flush_of_unsaved hpending₂, ha.settings]
    generalize writeSnapshot h _ (Snapshot.write w₁.store.rows) = written₁ at hwritten ⊢
    generalize writeSnapshot h _ (Snapshot.write w₂.store.rows) = written₂ at hwritten ⊢
    rcases written₁ with ⟨disk₁, fault | _⟩ <;> rcases written₂ with ⟨disk₂, fault' | _⟩ <;>
      cases hwritten <;> rfl

end Saving

/-! ## What is missing -/

section Missing
variable {h : Host} {w w₁ w₂ : Workspace} {root : String} {files : List String}

theorem Alike.missing_eq (ha : Alike w₁ w₂) (seen : List String) :
    missing h w₁ root seen = missing h w₂ root seen := by
  rw [missing, missing, ha.rows.documentUris_eq]
  simp only [isOpen, ha.opened]

/-- Workspaces that are alike are so after the rest of the run, and its answers have the same
counters. -/
theorem Alike.finishIndexing (ha : Alike w₁ w₂) (h₁ : w₁.store.rows.Regular)
    (h₂ : w₂.store.rows.Regular) {report₁ report₂ : IndexReport}
    (hreports : report₁.counters = report₂.counters) :
    (w₁.finishIndexing h report₁ root files).1.store.rows.SameButTime
        (w₂.finishIndexing h report₂ root files).1.store.rows ∧
      (w₁.finishIndexing h report₁ root files).2.2.map IndexReport.counters =
        (w₂.finishIndexing h report₂ root files).2.2.map IndexReport.counters := by
  obtain ⟨t₁, hrun₁, heq₁⟩ := finishIndexing_eq (h := h) h₁ root files report₁
  obtain ⟨t₂, hrun₂, heq₂⟩ := finishIndexing_eq (h := h) h₂ root files report₂
  rw [ha.missing_eq] at hrun₁ heq₁
  obtain ⟨hdirty₁, hpersistent₁⟩ := Store.dirty_of_runAll hrun₁
  obtain ⟨hdirty₂, hpersistent₂⟩ := Store.dirty_of_runAll hrun₂
  have hremoved : Alike { w₁ with store := t₁ } { w₂ with store := t₂ } := by
    constructor
    case settings => exact ha.settings
    case opened => exact ha.opened
    case rows => exact ha.rows.runAll_removals hrun₁ hrun₂
    case dirty => exact hdirty₁.trans (ha.dirty ▸ hdirty₂.symm)
    case persistent => exact hpersistent₁.trans (ha.persistent.trans hpersistent₂.symm)
  rw [heq₁, heq₂]
  refine ⟨?_, ?_⟩
  · show (flush h { w₁ with store := t₁ }).1.store.rows.SameButTime
      (flush h { w₂ with store := t₂ }).1.store.rows
    rw [(flush_eq h _).2.2, (flush_eq h _).2.2]
    exact hremoved.rows
  · have hcounters (n : Nat) : ({ report₁ with removed := n } : IndexReport).counters =
        ({ report₂ with removed := n } : IndexReport).counters :=
      congrArg (fun r : IndexReport => { r with removed := n }) hreports
    simp only [hremoved.done_flush]
    cases (flush h { w₂ with store := t₂ }).2.2 with
    | error e => rfl
    | ok _ => exact congrArg Except.ok (hcounters _)

end Missing

/-! ## After a run -/

/-- What holds of a workspace after a run. -/
structure Finished (h : Host) (w : Workspace) (root : String) (files : List String)
    (w' : Workspace) : Prop where
  opened : w'.opened = w.opened
  regular : w'.store.rows.Regular
  updated : ∀ path ∈ files, ∃ now, w.IsUpdated { h with now } path w'.store.rows
  complete : missing h w' root (files.map (Path.toUri h.cwd)) = []

section Finished
variable {h : Host} {w w₁ w' : Workspace} {root path uri : String} {files : List String}

theorem hasDocument_of_removals {rows rows' : Rows} {allowed : Operation → Prop}
    (hleads : rows.LeadsTo allowed rows') (hremovals : ∀ op, allowed op → ∃ uri, op = .remove uri)
    (hstored : rows'.HasDocument uri) : rows.HasDocument uri := by
  induction hleads with
  | refl => exact hstored
  | step _ hop hrun ih =>
    obtain ⟨removed, rfl⟩ := hremovals _ hop
    obtain ⟨batch, hbatch, hrows⟩ := Store.exists_of_run_remove hrun
    obtain ⟨value, hget⟩ := Option.isSome_iff_exists.1 hstored
    rw [hrows] at hget
    refine ih ?_
    rw [Rows.HasDocument, Store.get?_of_apply_removal hbatch hget]
    rfl

theorem Indexed.finished (hi : Indexed h w files w₁) (hw : w.store.rows.Regular)
    (hfiles : FilesRegular h files) (root : String) (report : IndexReport) :
    Finished h w root files (w₁.finishIndexing h report root files).1 := by
  have h₁ := hi.regular hw
  have hfollows := follows_finishIndexing (h := h) (w := w₁) report root files
  have hnotMissing {path : String} (hpath : path ∈ files) :
      ¬ IsMissing h w₁ root (files.map (Path.toUri h.cwd)) (Path.toUri h.cwd path) :=
    fun hmissing => hmissing.2.2.1 (List.mem_map_of_mem hpath)
  constructor
  case opened => exact hfollows.opened.trans hi.follows.opened
  case regular =>
    refine hfollows.rows.regular h₁ ?_
    rintro op ⟨uri, hmissing, rfl⟩
    exact h₁.isFiled.regular_remove (h₁.isFiled.mem_documentUris.1 hmissing.1)
  case updated =>
    intro path hpath
    obtain ⟨now, hupdated⟩ := hi.updated path hpath
    refine ⟨now, isUpdated_of_agreeOn ?_ hupdated⟩
    exact agreeOn_finishIndexing h₁ report (hfiles path hpath).1 (hnotMissing hpath)
  case complete =>
    refine List.eq_nil_iff_forall_not_mem.2 fun uri huri => ?_
    obtain ⟨hlisted, hbelow, hunseen, hclosed⟩ := mem_missing.1 huri
    have hstored : (w₁.finishIndexing h report root files).1.store.rows.HasDocument uri := by
      refine Rows.Filed.mem_documentUris ?_ |>.1 hlisted
      refine hfollows.rows.filed h₁.isFiled ?_
      rintro op ⟨uri, hmissing, rfl⟩
      exact h₁.isFiled.nulFree_of_hasDocument (h₁.isFiled.mem_documentUris.1 hmissing.1)
    have hstored₁ : w₁.store.rows.HasDocument uri := by
      refine hasDocument_of_removals hfollows.rows ?_ hstored
      rintro op ⟨uri, -, rfl⟩
      exact ⟨uri, rfl⟩
    refine (hasDocument_finishIndexing_iff h₁ report hstored₁).1 hstored ?_
    refine ⟨h₁.isFiled.mem_documentUris.2 hstored₁, hbelow, hunseen, ?_⟩
    rwa [← hfollows.isOpen]

/-- A file that was brought up to date is not to be stored again. -/
theorem plan_again
    (hfile : ∀ modified d, readFile h (Path.toUri h.cwd path) modified = .ok d → d.Regular)
    (hopened : w'.opened = w.opened) (hupdated : w.IsUpdated h path w'.store.rows) :
    w'.plan h path = (w.plan h path).map fun _ => none := by
  unfold IsUpdated at hupdated
  rcases hplan : w.plan h path with e | _ | d
  · rw [hplan] at hupdated
    rw [plan_congr hopened (hupdated _ (owned_recordKey _)), hplan]
    rfl
  · rw [hplan] at hupdated
    rw [plan_congr hopened (hupdated _ (owned_recordKey _)), hplan]
    rfl
  · rw [hplan] at hupdated
    obtain ⟨s, hrun, hagree⟩ := hupdated
    obtain ⟨modified, hmodified, hstale, hread⟩ := of_plan_eq_some hplan
    obtain ⟨huri, htime⟩ := uri_readFile hread
    have hcurrent := isCurrent_of_replace (w := { w with store := s }) hrun
      (hfile modified d hread).record modified
    have hclosed : w.isOpen (Path.toUri h.cwd path) = false := not_isOpen_of_isSettled hstale
    have hsettled : w'.isSettled (Path.toUri h.cwd path) modified = .ok true := by
      rw [isSettled_congr (w := { w with store := s }) hopened (hagree _ (owned_recordKey _)),
        isSettled_of_closed (w := { w with store := s }) hclosed, ← huri, hcurrent, htime,
        beq_self_eq_true]
    simp only [plan, hmodified, hsettled]
    rfl

end Finished

/-! ## Once more -/

/-- Whether another host shows the files with the same times and texts. -/
structure SeesSame (h : Host) (files : List String) (again : Host) : Prop where
  cwd : again.cwd = h.cwd
  modified : ∀ path ∈ files, again.modified path = h.modified path
  texts : ∀ path ∈ files, ∀ modified,
    readFile again (Path.toUri h.cwd path) modified = readFile h (Path.toUri h.cwd path) modified

section Again
variable {h again : Host} {w w' w₂ : Workspace} {root path : String} {files listed : List String}

theorem SeesSame.plan_eq (hsame : SeesSame h files again) (hpath : path ∈ files) (w' : Workspace) :
    w'.plan again path = w'.plan h path := by
  simp only [plan, hsame.cwd, hsame.modified path hpath, hsame.texts path hpath]

theorem SeesSame.filesRegular (hsame : SeesSame h files again) (hfiles : FilesRegular h files) :
    FilesRegular again files := by
  intro path hpath
  rw [hsame.cwd]
  refine ⟨(hfiles path hpath).1, fun modified d hread => (hfiles path hpath).2 modified d ?_⟩
  rwa [← hsame.texts path hpath]

/-- Where nothing is to be stored for any file, no row changes. -/
theorem Indexed.unchanged (hi : Indexed h w files w₂) (hw : w.store.rows.Regular)
    (hnothing : ∀ path ∈ files, ∀ d, w.plan h path ≠ .ok (some d)) :
    w₂.store.rows = w.store.rows ∧ w₂.store.dirty = w.store.dirty := by
  constructor
  · refine OrderedMap.ext_get? fun key => ?_
    by_cases hkey : ∃ path ∈ files, Owned (Path.toUri h.cwd path) key
    · obtain ⟨path, hpath, hown⟩ := hkey
      obtain ⟨now, hupdated⟩ := hi.updated path hpath
      unfold IsUpdated at hupdated
      rw [plan_at_time] at hupdated
      split at hupdated
      · next d hplan => exact absurd hplan (hnothing path hpath d)
      · exact hupdated key hown
    · exact hi.get?_of_not_owned hw fun path hpath hown => hkey ⟨path, hpath, hown⟩
  · have hnone : files.any (w.isPlanned h) = false := by
      refine List.any_eq_false.2 fun path hpath hplanned => ?_
      rcases hplan : w.plan h path with e | _ | d
      · rw [isPlanned, hplan] at hplanned
        cases hplanned
      · rw [isPlanned, hplan] at hplanned
        cases hplanned
      · exact hnothing path hpath d hplan
    rw [hi.dirty, hnone, Bool.or_false]

theorem Finished.plan_eq (hfinished : Finished h w root files w') (hfiles : FilesRegular h files)
    (hsame : SeesSame h files again) :
    ∀ path ∈ files, w'.plan again path = (w.plan h path).map fun _ => none := by
  intro path hpath
  obtain ⟨now, hupdated⟩ := hfinished.updated path hpath
  have hplanned := plan_again (filesRegular_at_time hfiles now path hpath).2 hfinished.opened
    hupdated
  rw [plan_at_time h w' path now, plan_at_time h w path now] at hplanned
  rw [hsame.plan_eq hpath, hplanned]

/-- A second run over the same files, in any order, finds every file as it is stored and nothing
missing. -/
theorem Finished.rerun {run : Workspace × Disk × Except IndexError IndexReport}
    (hfinished : Finished h w root files w') (hfiles : FilesRegular h files)
    (hdistinct : (files.map (Path.toUri h.cwd)).Nodup) (hsame : SeesSame h files again)
    (hlisted : listed ~ files) (hrun : IsRun again w' root listed run) :
    ∃ outcomes, outcomes ~ files.map (w'.outcomeOf again) ∧
      run.1.store.rows = w'.store.rows ∧
      ((w'.store.persistent && w'.store.dirty) = false →
        run.2.2 = .ok { IndexReport.ofOutcomes outcomes with removed := 0 }) := by
  have huris := hlisted.map (Path.toUri again.cwd)
  have hagain : FilesRegular again listed := fun path hpath =>
    hsame.filesRegular hfiles path (hlisted.mem_iff.1 hpath)
  obtain ⟨w₂, outcomes, hi, hout, rfl⟩ := exists_of_isRun hrun hfinished.regular hagain
    (huris.nodup_iff.2 (hsame.cwd ▸ hdistinct))
  obtain ⟨hrows, hdirty⟩ := hi.unchanged hfinished.regular fun path hpath d hstored => by
    rw [hfinished.plan_eq hfiles hsame path (hlisted.mem_iff.1 hpath)] at hstored
    obtain ⟨_, -, hnone⟩ := map_eq_ok hstored
    cases hnone
  have hmissing : missing again w₂ root (listed.map (Path.toUri again.cwd)) = [] := by
    rw [missing, uriLead, hrows, hsame.cwd]
    simp only [isOpen, hi.follows.opened]
    rw [hsame.cwd] at huris
    simp only [huris.mem_iff]
    exact hfinished.complete
  obtain ⟨t, hremoved, heq⟩ := finishIndexing_eq (h := again) (hi.regular hfinished.regular)
    root listed (.ofOutcomes outcomes)
  rw [hmissing] at hremoved heq
  cases hremoved
  refine ⟨outcomes, hout.trans (hlisted.map _), ?_, fun hsaved => ?_⟩
  · rw [heq]
    exact (flush_eq again _).2.2.trans hrows
  · rw [heq, flush_of_saved (by rw [hi.persistent, hdirty]; exact hsaved)]
    rfl

end Again

/-! ## What a run answers -/

section Answers
variable {h again : Host} {w w' w₁ : Workspace} {root path uri : String} {files : List String}
  {outcomes : List (String × Except IndexError SyncOutcome)}

/-- A run answers its report if the store is not kept or could be saved. -/
theorem Indexed.answer (hi : Indexed h w files w₁) (hw : w.store.rows.Regular) (root : String)
    (report : IndexReport) :
    (∃ n, (w₁.finishIndexing h report root files).2.2 = .ok { report with removed := n } ∧
      ((w₁.finishIndexing h report root files).1.store.persistent &&
        (w₁.finishIndexing h report root files).1.store.dirty) = false) ∨
    w.store.persistent = true ∧
      ∃ fault, (w₁.finishIndexing h report root files).2.2 = .error (.store (.file fault)) := by
  obtain ⟨t, hrun, heq⟩ :=
    finishIndexing_eq (h := h) (hi.regular hw) root files report
  have hkept : t.persistent = w.store.persistent :=
    (Store.dirty_of_runAll hrun).2.trans hi.persistent
  have hsaved := saved_of_flush (h := h) (w := { w₁ with store := t })
  have hfails (e : IndexError) :=
    of_flush_eq_error (h := h) (w := { w₁ with store := t }) (e := e)
  rw [heq]
  generalize flush h { w₁ with store := t } = saved at hsaved hfails ⊢
  obtain ⟨w', disk, e | done⟩ := saved
  · obtain ⟨hpersistent, fault, rfl⟩ := hfails e rfl
    exact .inr ⟨hkept.symm.trans hpersistent, fault, rfl⟩
  · exact .inl ⟨_, rfl, hsaved rfl⟩

/-- A file that fails leaves the rows of its document. -/
theorem Finished.agreeOn_of_error (hfinished : Finished h w root files w')
    (hw : w.store.rows.Regular) (hpath : path ∈ files) {e : IndexError}
    (hfails : (w.indexPath h path).2 = .error e) :
    w'.store.rows.AgreeOn (Path.toUri h.cwd path) w.store.rows := by
  obtain ⟨now, hupdated⟩ := hfinished.updated path hpath
  rw [snd_indexPath hw] at hfails
  rcases hplan : w.plan h path with e | d?
  · rw [IsUpdated, plan_at_time, hplan] at hupdated
    exact hupdated
  · rw [hplan] at hfails
    cases hfails

/-- Documents that are not below the directory keep their rows. -/
theorem Indexed.agreeOn_of_elsewhere (hi : Indexed h w files w₁) (hw : w.store.rows.Regular)
    (report : IndexReport) (huri : NulFree uri)
    (helsewhere : Text.startsWith (uriLead h root) uri = false)
    (hunlisted : uri ∉ files.map (Path.toUri h.cwd)) :
    Rows.AgreeOn uri (w₁.finishIndexing h report root files).1.store.rows w.store.rows := by
  refine (agreeOn_finishIndexing (hi.regular hw) report huri fun hmissing => ?_).trans
    (hi.follows.rows.agreeOn hw (fun _ hop => hop.1) (fun op hop heq => ?_) huri)
  · obtain ⟨-, hbelow, -⟩ := hmissing
    rw [helsewhere] at hbelow
    cases hbelow
  · obtain ⟨-, path, hpath, hop⟩ := hop
    exact hunlisted (heq.symm.trans hop ▸ List.mem_map_of_mem hpath)

/-- What is counted as failed or indexed of the files once more. -/
theorem counts_again (hw : w.store.rows.Regular) (hw' : w'.store.rows.Regular)
    {outcomes' : List (String × Except IndexError SyncOutcome)}
    (hplan : ∀ path ∈ files, w'.plan again path = (w.plan h path).map fun _ => none)
    (hout : outcomes ~ files.map (w.outcomeOf h))
    (hout' : outcomes' ~ files.map (w'.outcomeOf again)) :
    (IndexReport.ofOutcomes outcomes').indexed = 0 ∧
      (IndexReport.ofOutcomes outcomes').failed = (IndexReport.ofOutcomes outcomes).failed := by
  have hcomes {path : String} (hpath : path ∈ files) : (w'.indexPath again path).2 =
      (w.plan h path).map fun _ => .unchanged := by
    rw [snd_indexPath hw', hplan path hpath]
    rcases w.plan h path with e | d? <;> rfl
  rw [IndexReport.indexed_ofOutcomes, IndexReport.failed_ofOutcomes, IndexReport.failed_ofOutcomes,
    hout'.countP_eq, hout'.countP_eq, hout.countP_eq, List.countP_map, List.countP_map,
    List.countP_map]
  constructor
  · refine List.countP_eq_zero.2 fun path hpath hindexed => ?_
    simp only [Function.comp_apply, outcomeOf, hcomes hpath] at hindexed
    generalize w.plan h path = planned at hindexed
    cases planned <;> cases hindexed
  · refine List.countP_congr fun path hpath => ?_
    simp only [Function.comp_apply, outcomeOf, hcomes hpath, snd_indexPath hw]
    rcases w.plan h path with e | d? <;> rfl

end Answers
end Workspace

open Workspace in
/-- Whatever files the walk lists, and whatever the order of their tasks, a run leaves the rows that
the files one after the other leave, times of indexing apart, and answers the same counters, or the
same fault in saving the store. Each file counts once. A file that fails changes no row of its
document, nor does the run of documents elsewhere; and once more, with the same files, it changes no
row at all, indexes and removes nothing, and fails for as many files. -/
theorem directory_runs_alike {h : Host} {w : Workspace} {root : String} {files : List String}
    (hrows : w.store.rows.Reached) (hfiles : FilesRegular h files)
    (hdistinct : (files.map (Path.toUri h.cwd)).Nodup)
    {run : Workspace × Disk × Except IndexError IndexReport} (hrun : IsRun h w root files run) :
    let once := w.indexListed h root files
    (run.1.store.rows.SameButTime once.1.store.rows ∧
      run.2.2.map IndexReport.counters = once.2.2.map IndexReport.counters) ∧
    ((∃ report, run.2.2 = .ok report ∧
        report.indexed + report.unchanged + report.failed = files.length) ∨
      w.store.persistent = true ∧ ∃ fault, run.2.2 = .error (.store (.file fault))) ∧
    (∀ path ∈ files, ∀ e, (w.indexPath h path).2 = .error e →
      run.1.store.rows.AgreeOn (Path.toUri h.cwd path) w.store.rows) ∧
    (∀ uri, NulFree uri → Text.startsWith (uriLead h root) uri = false →
      uri ∉ files.map (Path.toUri h.cwd) → run.1.store.rows.AgreeOn uri w.store.rows) ∧
    ∀ h', SeesSame h files h' → ∀ listed, listed ~ files → ∀ again,
      IsRun h' run.1 root listed again →
      again.1.store.rows = run.1.store.rows ∧
      ∀ report, run.2.2 = .ok report → ∃ report', again.2.2 = .ok report' ∧
        report'.indexed = 0 ∧ report'.removed = 0 ∧ report'.failed = report.failed := by
  intro once
  have hw := hrows.regular
  obtain ⟨w₁, outcomes, hi, hout, rfl⟩ := exists_of_isRun hrun hw hfiles hdistinct
  obtain ⟨w₂, outcomes', hi', hout', honce⟩ :=
    exists_of_isRun (isRun_indexListed h w root files) hw hfiles hdistinct
  have hfinished := hi.finished hw hfiles root (.ofOutcomes outcomes)
  have hanswer := hi.answer hw root (.ofOutcomes outcomes)
  refine ⟨?_, ?_, ?_, ?_, ?_⟩
  · rw [show once = _ from honce]
    exact (hi.alike hi' hw).finishIndexing (hi.regular hw) (hi'.regular hw)
      (IndexReport.counters_ofOutcomes_of_perm (hout.trans hout'.symm))
  · refine hanswer.imp_left fun ⟨n, hok, _⟩ => ⟨_, hok, ?_⟩
    exact IndexReport.handled_ofOutcomes.trans (hout.length_eq.trans (List.length_map _))
  · exact fun path hpath e hfails => hfinished.agreeOn_of_error hw hpath hfails
  · exact fun uri huri helsewhere hunlisted =>
      hi.agreeOn_of_elsewhere hw _ huri helsewhere hunlisted
  · intro h' hsame listed hlisted again hagain
    obtain ⟨outcomes'', hout'', hkept, hreport⟩ :=
      hfinished.rerun hfiles hdistinct hsame hlisted hagain
    obtain ⟨hindexed, hfailed⟩ := counts_again hw hfinished.regular
      (hfinished.plan_eq hfiles hsame) hout hout''
    refine ⟨hkept, fun report hok => ?_⟩
    rcases hanswer with ⟨n, hok', hsaved⟩ | ⟨-, fault, herror⟩
    · obtain rfl := Except.ok.inj (hok.symm.trans hok')
      exact ⟨_, hreport hsaved, hindexed, rfl, hfailed⟩
    · cases hok.symm.trans herror

/-- Two files in the directory of all files. -/
def Host.withTwoFiles : Host :=
  { Host.blank with
    disk := ⟨.ofList [("/a.php", .file (Bytes.ofText "<?php") 5),
      ("/b.php", .file (Bytes.ofText "<?php g();") 7)]⟩
    now := 9 }

/-- The second file is checked and read between the steps of the first, and stored before it. -/
def secondFirst : List Action :=
  [.advance 1, .advance 0, .advance 1, .advance 1, .advance 0, .change Host.withTwoFiles.disk 6,
    .advance 1, .advance 0, .change Host.withTwoFiles.disk 9, .advance 0]

theorem directory_runs_alike_interleaved :
    let h := Host.withTwoFiles
    let w := Workspace.blank
    let s₀ := Session.indexing { h with now := 3 } w ["/a.php", "/b.php"]
    let run := (s₀.runAll secondFirst).workspace.finishIndexing h (s₀.report secondFirst) "/"
      ["/a.php", "/b.php"]
    let again := run.1.indexListed h "/" ["/b.php", "/a.php"]
    run.1.store.rows.SameButTime (w.indexDirectory h "/").1.store.rows ∧
      (∃ report, run.2.2 = .ok report ∧ report.indexed + report.unchanged + report.failed = 2) ∧
      again.1.store.rows = run.1.store.rows := by
  intro h w s₀ run again
  have hlist : Workspace.filesToIndex h w.settings "/" = ["/a.php", "/b.php"] := by decide +kernel
  have hrows : w.store.rows.Reached := ⟨[], .volatile, nofun, rfl, rfl⟩
  have hfiles : Workspace.FilesRegular h ["/a.php", "/b.php"] :=
    Workspace.filesRegular_of_texts (by decide +kernel)
  have hrun : Workspace.IsRun h w "/" ["/a.php", "/b.php"] run :=
    ⟨3, secondFirst, by simp [secondFirst, Action.IsStep, h], by decide +kernel, by decide +kernel,
      rfl⟩
  obtain ⟨⟨hsame, -⟩, hanswer, -, -, hagain⟩ :=
    directory_runs_alike hrows hfiles (by decide +kernel) hrun
  refine ⟨?_, ?_, ?_⟩
  · rw [Workspace.indexDirectory, hlist]
    exact hsame
  · rcases hanswer with ⟨report, hok, hall⟩ | ⟨hpersistent, -⟩
    · exact ⟨report, hok, hall⟩
    · cases hpersistent
  · exact (hagain h ⟨rfl, fun _ _ => rfl, fun _ _ _ => rfl⟩ ["/b.php", "/a.php"]
      (List.Perm.swap _ _ _) again (Workspace.isRun_indexListed h run.1 "/" _)).1

/-- Documents elsewhere change in a run. A backslash in the name of a directory stands for a slash
in its uri, so that the documents of another directory are taken for missing. And to remove what is
missing takes a word from the index that a document elsewhere has under the same key, where names
have zero characters. -/
theorem directory_runs_unlike :
    let h := Host.blank
    let w := (Workspace.blank.indexDocument h (functionDocument "file:///a/b/x.php" "f")).1
    let missing := "file:///w/v"
    let name := "p_q\x00" ++ missing ++ "\x00q\x00u\x00p_q"
    let w₁ := (Workspace.blank.indexDocument h (functionDocument missing "q\x00u\x00p_q")).1
    let w₂ := (w₁.indexDocument h (functionDocument "u" name)).1
    let word := IndexPart.words .functions |>.table.key (CompletionIndex.key "" "q" "u" name)
    (w.store.rows.HasDocument "file:///a/b/x.php" ∧
      ¬ (w.indexDirectory h "/a\\b").1.store.rows.HasDocument "file:///a/b/x.php") ∧
    w₂.store.rows.get? word = some (toRecord (⟨"u", name⟩ : CompletionEntry)) ∧
      (w₂.indexDirectory h "/w").1.store.rows.get? word = none := by
  decide +kernel

end PhpIndex
