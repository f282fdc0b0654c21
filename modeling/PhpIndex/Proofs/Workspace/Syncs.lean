import PhpIndex.Proofs.Index.Ownership
import PhpIndex.Proofs.Workspace.Sessions

/-!
# Files brought up to date at once

Several calls bring one document up to date while its file changes. Each reads the file by itself
and stores what it has read when its turn comes, so that texts may be stored in another order than
they were read in. Every text that is read is taken up once, and the store is left as by the one
that was taken up last, or by one of the same time. So the latest text stays where it is also the
last to be taken up; where it is not, an older one takes its place.
Main statements: `Session.Syncing.act`, `syncs_store_last`, `sync_loses_text`.
-/
namespace PhpIndex
open scoped List

namespace Workspace
variable {w : Workspace} {uri : String} {modified : Int64}

theorem isSettled_of_closed (hclosed : w.isOpen uri = false) :
    w.isSettled uri modified = w.isCurrent uri modified := by
  rw [isSettled, hclosed]
  rfl

theorem isCurrent_congr {w' : Workspace} (hstore : w.store = w'.store) :
    w.isCurrent uri modified = w'.isCurrent uri modified := by
  unfold isCurrent ask
  rw [hstore]

/-- The version that was stored last is current at its own time only. -/
theorem isCurrent_of_replace {d : Document} {now : Int64} {before : Store}
    (hrun : (Operation.replace (d.version now)).run before = .ok w.store)
    (hfits : (d.record now).Fits) (modified : Int64) :
    w.isCurrent d.uri modified = .ok (d.modified == modified) := by
  have hall : before.runAll [.replace (d.version now)] = .ok w.store := by
    rw [Store.runAll, List.foldlM_cons, hrun]
    rfl
  have hread := (Version.recorded_of_runAll hall (List.forall_mem_nil _)).run_document hfits
  have hread' : (Index.document d.uri).run w.store.rows = .ok (some (d.record now).normal) := hread
  unfold isCurrent ask
  rw [hread']
  rfl

end Workspace

namespace Task

/-- What is waiting to be stored. -/
def pending? : Task → Option Document
  | commit _ d => some d
  | _ => none

/-- The time that was found not to be that of the stored version. -/
def stale? : Task → Option Int64
  | read _ modified _ => some modified
  | commit _ d => some d.modified
  | _ => none

/-- Whether the task is one of a call that brings the document up to date. -/
def Syncs (uri : String) : Task → Prop
  | check uri' _ => uri' = uri
  | read uri' _ again => uri' = uri ∧ again = false
  | commit again d => d.uri = uri ∧ again = false
  | _ => False

namespace Leaves
variable {h : Host} {w : Workspace} {t next : Task} {uri : String}

theorem syncs (hleaves : t.Leaves h w next) (ht : t.Syncs uri) : next.Syncs uri := by
  cases hleaves with
  | checks _ => exact ht.elim
  | reads _ => exact ⟨ht, rfl⟩
  | commits hread => exact ⟨(Workspace.uri_readFile hread).1.trans ht.1, ht.2⟩
  | locates => exact ht.elim
  | readsAgain => exact ht.elim
  | removes => exact ht.elim

theorem stale (hleaves : t.Leaves h w next) (ht : t.Syncs uri) (hclosed : w.isOpen uri = false)
    {modified : Int64} (hnext : next.stale? = some modified) :
    t.stale? = some modified ∨ w.isCurrent uri modified = .ok false := by
  cases hleaves with
  | reads hstale =>
    obtain rfl : _ = uri := ht
    rw [Workspace.isSettled_of_closed hclosed] at hstale
    cases hnext
    exact .inr hstale
  | commits hread =>
    cases hnext
    exact .inl (congrArg some (Workspace.uri_readFile hread).2.symm)
  | readsAgain => exact ht.elim
  | checks _ => cases hnext
  | locates => cases hnext
  | removes => cases hnext

end Leaves
end Task

namespace Session
variable {s : Session} {a : Action} {t : Task}

/-- The text that an action reads from the disk. -/
def read? (s : Session) (a : Action) : Option Document :=
  match s.task? a with
  | some (.read uri modified _) => (Workspace.readFile s.host uri modified).toOption
  | _ => none

/-- The text that an action takes up from where it was read. -/
def commit? (s : Session) (a : Action) : Option Document := (s.task? a).bind Task.pending?

/-- Whether the store is as the document has left it. -/
def Stores (s : Session) (d : Document) : Prop :=
  ∃ before now, (Operation.replace (d.version now)).run before = .ok s.workspace.store

theorem failed_act_of_task (htask : s.task? a = some t) :
    (s.act a).failed = s.failed ++ (t.fault? s.host s.workspace).toList := by
  obtain ⟨i, -, hact⟩ := act_of_task htask
  rw [hact]
  rfl

theorem failed_of_act (hfine : (s.act a).failed = []) : s.failed = [] := by
  cases htask : s.task? a with
  | some t =>
    rw [failed_act_of_task htask] at hfine
    exact (List.append_eq_nil_iff.1 hfine).1
  | none =>
    cases a with
    | advance i =>
      simp only [act, show s.tasks[i]? = none from htask] at hfine
      exact hfine
    | _ => exact hfine

/-- A text that is taken up is stored, unless the stored version has its time. -/
theorem act_of_commit {d : Document} (htask : s.task? a = some (.commit false d))
    (hclosed : s.workspace.isOpen d.uri = false) (hfine : (s.act a).failed = []) :
    (s.workspace.isCurrent d.uri d.modified = .ok true ∧
      (s.act a).workspace = s.workspace) ∨ (s.act a).Stores d := by
  have hfault : (Task.commit false d).fault? s.host s.workspace = none := by
    rw [failed_act_of_task htask] at hfine
    exact Option.toList_eq_nil_iff.1 (List.append_eq_nil_iff.1 hfine).2
  have hpassed : s.workspace.isPassed false d = s.workspace.isCurrent d.uri d.modified :=
    Workspace.isSettled_of_closed hclosed
  rw [workspace_act_of_task htask]
  cases hcurrent : s.workspace.isCurrent d.uri d.modified with
  | error e =>
    rw [Task.fault?, Task.step, Workspace.commit_eq, hpassed, hcurrent] at hfault
    cases hfault
  | ok current =>
    cases current with
    | true =>
      rw [Task.step, Workspace.commit_eq, hpassed, hcurrent]
      exact .inl ⟨rfl, rfl⟩
    | false =>
      have hoperates : (Task.commit false d).Operates s.host s.workspace
          (.replace (d.version s.host.now)) := .commits (hpassed.trans hcurrent)
      rw [Task.fault?, hoperates.step_eq] at hfault
      refine .inr ⟨s.workspace.store, s.host.now, ?_⟩
      rw [workspace_act_of_task htask, hoperates.step_eq]
      rcases s.workspace.operate_cases (.replace (d.version s.host.now)) with
        ⟨s', hrun, heq⟩ | ⟨e, -, heq⟩
      · rw [heq]
        exact hrun
      · rw [heq] at hfault
        cases hfault

/-! ## What has been read and taken up -/

/-- What holds of a session in which only one document is brought up to date, by what was read of
its file and what was taken up of that. -/
structure Syncing (s₀ : Session) (uri : String) (s : Session) (reads commits : List Document) :
    Prop where
  opened : s.workspace.opened = s₀.workspace.opened
  tasks : ∀ t ∈ s.tasks, t.Syncs uri
  perm : reads.Perm (commits ++ s.tasks.filterMap Task.pending?)
  -- As long as nothing was taken up, what was read was found to differ from what is stored.
  stale : commits = [] → s.workspace.store = s₀.workspace.store ∧ ∀ t ∈ s.tasks,
    ∀ modified, t.stale? = some modified → s₀.workspace.isCurrent uri modified = .ok false
  last : ∀ d, commits.getLast? = some d →
    ∃ d' ∈ commits, d'.uri = uri ∧ d'.modified = d.modified ∧ s.Stores d'

namespace Syncing
variable {s₀ : Session} {uri : String} {reads commits : List Document}

theorem start (hidle : s₀.tasks = []) : Syncing s₀ uri s₀ [] [] where
  opened := rfl
  tasks t ht := by
    rw [hidle] at ht
    cases ht
  perm := by
    rw [hidle]
    exact .nil
  stale _ := by
    rw [hidle]
    exact ⟨rfl, nofun⟩
  last _ h := by cases h

variable (h : Syncing s₀ uri s reads commits)
include h

theorem syncs_of_task (htask : s.task? a = some t) : t.Syncs uri :=
  h.tasks t (mem_tasks_of_task htask)

theorem opened_act : (s.act a).workspace.opened = s₀.workspace.opened := by
  rw [← h.opened]
  cases htask : s.task? a with
  | none => rw [workspace_act_of_none htask]
  | some t =>
    have ht := h.syncs_of_task htask
    rw [workspace_act_of_task htask, Task.opened_step]
    cases t with
    | check _ _ => rfl
    | read _ _ _ => rfl
    | commit _ _ => rfl
    | _ => exact ht.elim

variable (hcall : ∀ c, a = .call c → ∃ modified, c = .sync uri modified)
include hcall

theorem tasks_act (ht : t ∈ (s.act a).tasks) : t.Syncs uri := by
  rcases mem_tasks_act ht with ht | ⟨c, rfl, rfl⟩ | ⟨before, hbefore, -, hleaves⟩
  · exact h.tasks t ht
  · obtain ⟨modified, rfl⟩ := hcall c rfl
    rfl
  · exact hleaves.syncs (h.tasks before hbefore)

omit hcall in
/-- Only what is taken up may be stored. -/
theorem store_act_of_commit_none (hcommit : s.commit? a = none) :
    (s.act a).workspace.store = s.workspace.store := by
  refine store_act_of_none ?_
  cases htask : s.task? a with
  | none => rw [operation?, htask]; rfl
  | some t =>
    have ht := h.syncs_of_task htask
    rw [operation?, htask]
    rw [commit?, htask] at hcommit
    cases t with
    | check _ _ => rfl
    | read _ _ _ => rfl
    | commit _ _ => cases hcommit
    | _ => exact ht.elim

omit hcall in
/-- What is read waits to be taken up, and what is taken up has waited. -/
theorem perm_of_task (hfine : (s.act a).failed = []) (htask : s.task? a = some t) :
    ((s.read? a).toList ++ t.pending?.toList).Perm
      ((s.commit? a).toList ++ (t.next? s.host s.workspace).toList.filterMap Task.pending?) := by
  have ht := h.syncs_of_task htask
  rw [read?, commit?, htask]
  cases t with
  | check uri' modified =>
    cases hnext : (Task.check uri' modified).next? s.host s.workspace with
    | none => exact .nil
    | some next =>
      cases Task.leaves_of_next hnext with
      | reads _ => exact .nil
  | read uri' modified again =>
    rw [failed_act_of_task htask, Task.fault?] at hfine
    simp only [Task.next?, Task.step]
    simp only [Task.step] at hfine
    cases hread : Workspace.readFile s.host uri' modified with
    | error e =>
      rw [hread] at hfine
      simp [Except.map] at hfine
    | ok d => exact .refl _
  | commit again d =>
    have hnone : (Task.commit again d).next? s.host s.workspace = none := by
      refine Option.eq_none_iff_forall_ne_some.2 fun next hnext => ?_
      cases Task.leaves_of_next hnext
    rw [hnone]
    exact .refl _
  | _ => exact ht.elim

theorem perm_act (hfine : (s.act a).failed = []) :
    (reads ++ (s.read? a).toList).Perm
      (commits ++ (s.commit? a).toList ++ (s.act a).tasks.filterMap Task.pending?) := by
  cases htask : s.task? a with
  | none =>
    have hpending : (s.act a).tasks.filterMap Task.pending? = s.tasks.filterMap Task.pending? := by
      cases a with
      | call c =>
        obtain ⟨modified, rfl⟩ := hcall c rfl
        rw [act, List.filterMap_append]
        exact List.append_nil _
      | change disk now => rfl
      | advance i => simp only [act, show s.tasks[i]? = none from htask]
    rw [read?, commit?, htask, hpending]
    simpa using h.perm
  | some t =>
    obtain ⟨rest, hbefore, hafter⟩ := perm_tasks_act htask
    have hcons : (t :: rest).filterMap Task.pending? =
        t.pending?.toList ++ rest.filterMap Task.pending? := by
      rw [List.filterMap_cons]
      cases t.pending? <;> rfl
    have hstep := h.perm_of_task hfine htask
    have hpending := hbefore.filterMap Task.pending?
    have hleft := hafter.filterMap Task.pending?
    rw [hcons] at hpending
    rw [List.filterMap_append] at hleft
    calc reads ++ (s.read? a).toList
      _ ~ commits ++ ((t.pending?.toList ++ rest.filterMap Task.pending?) ++
            (s.read? a).toList) := by
          rw [← List.append_assoc]
          exact (h.perm.trans (hpending.append_left commits)).append_right _
      _ ~ commits ++ (((s.read? a).toList ++ t.pending?.toList) ++
            rest.filterMap Task.pending?) := by
          rw [List.append_assoc (s.read? a).toList]
          exact List.perm_append_comm.append_left commits
      _ ~ commits ++ (((s.commit? a).toList ++
            (t.next? s.host s.workspace).toList.filterMap Task.pending?) ++
            rest.filterMap Task.pending?) := (hstep.append_right _).append_left commits
      _ ~ commits ++ (s.commit? a).toList ++ (s.act a).tasks.filterMap Task.pending? := by
          rw [List.append_assoc (s.commit? a).toList, ← List.append_assoc commits]
          exact hleft.symm.append_left _

variable (hclosed : s₀.workspace.isOpen uri = false)
include hclosed

omit hcall in
theorem closed : s.workspace.isOpen uri = false := by
  rw [← hclosed, Workspace.isOpen, Workspace.isOpen, h.opened]

theorem stale_act (hnone : commits ++ (s.commit? a).toList = []) :
    (s.act a).workspace.store = s₀.workspace.store ∧ ∀ t ∈ (s.act a).tasks,
      ∀ modified, t.stale? = some modified →
        s₀.workspace.isCurrent uri modified = .ok false := by
  obtain ⟨hcommits, hcommit⟩ := List.append_eq_nil_iff.1 hnone
  obtain ⟨hstore, hstale⟩ := h.stale hcommits
  refine ⟨?_, fun t ht modified hmodified => ?_⟩
  · rw [h.store_act_of_commit_none (Option.toList_eq_nil_iff.1 hcommit), hstore]
  · rcases mem_tasks_act ht with ht | ⟨c, rfl, rfl⟩ | ⟨before, hbefore, -, hleaves⟩
    · exact hstale t ht modified hmodified
    · obtain ⟨_, rfl⟩ := hcall c rfl
      cases hmodified
    · rcases hleaves.stale (h.tasks before hbefore) (h.closed hclosed) hmodified with
        hmodified | hcurrent
      · exact hstale before hbefore modified hmodified
      · rwa [Workspace.isCurrent_congr hstore] at hcurrent

omit hcall in
theorem last_act (hfine : (s.act a).failed = []) (hfits : ∀ d ∈ reads, (d.record 0).Fits) :
    ∀ d, (commits ++ (s.commit? a).toList).getLast? = some d →
      ∃ d' ∈ commits ++ (s.commit? a).toList, d'.uri = uri ∧ d'.modified = d.modified ∧
        (s.act a).Stores d' := by
  cases hcommit : s.commit? a with
  | none =>
    rw [Option.toList_none, List.append_nil]
    intro d hd
    obtain ⟨d', hd', huri, hmodified, before, now, hrun⟩ := h.last d hd
    refine ⟨d', hd', huri, hmodified, before, now, ?_⟩
    rw [h.store_act_of_commit_none hcommit, hrun]
  | some d =>
    obtain ⟨t, htask, hpending⟩ := Option.bind_eq_some_iff.1 hcommit
    have ht := h.syncs_of_task htask
    have hin := mem_tasks_of_task htask
    intro last hlast
    rw [Option.toList_some, List.getLast?_append, List.getLast?_singleton, Option.some_or] at hlast
    obtain rfl := Option.some.inj hlast
    cases t with
    | commit again _ =>
      cases hpending
      obtain ⟨rfl, rfl⟩ := ht
      rcases act_of_commit htask (h.closed hclosed) hfine with ⟨hcurrent, hkept⟩ | hstores
      · -- What is stored has the time of this text, so it was taken up before.
        cases hcommits : commits.getLast? with
        | none =>
          obtain ⟨hstore, hstale⟩ := h.stale (List.getLast?_eq_none_iff.1 hcommits)
          rw [Workspace.isCurrent_congr hstore, hstale _ hin _ rfl] at hcurrent
          cases hcurrent
        | some d₀ =>
          obtain ⟨d', hd', huri, -, before, now, hrun⟩ := h.last d₀ hcommits
          have hread : d' ∈ reads := h.perm.mem_iff.2 (List.mem_append_left _ hd')
          rw [← huri, Workspace.isCurrent_of_replace hrun (hfits d' hread)] at hcurrent
          have hmodified := eq_of_beq (Except.ok.inj hcurrent)
          exact ⟨d', List.mem_append_left _ hd', huri, hmodified, before, now, hkept ▸ hrun⟩
      · exact ⟨_, List.mem_append_right _ List.mem_cons_self, rfl, rfl, hstores⟩
    | _ => cases hpending

theorem act (hfine : (s.act a).failed = []) (hfits : ∀ d ∈ reads, (d.record 0).Fits) :
    Syncing s₀ uri (s.act a) (reads ++ (s.read? a).toList) (commits ++ (s.commit? a).toList) where
  opened := h.opened_act
  tasks _ ht := h.tasks_act hcall ht
  perm := h.perm_act hcall hfine
  stale := h.stale_act hcall hclosed
  last := h.last_act hclosed hfine hfits

end Syncing

theorem syncing_runAll {s₀ : Session} (hidle : s₀.tasks = []) {uri : String}
    (hclosed : s₀.workspace.isOpen uri = false) {actions : List Action}
    (hcalls : ∀ c, .call c ∈ actions → ∃ modified, c = .sync uri modified)
    (hfine : (s₀.runAll actions).failed = [])
    (hfits : ∀ d ∈ s₀.trace read? actions, (d.record 0).Fits) :
    Syncing s₀ uri (s₀.runAll actions) (s₀.trace read? actions) (s₀.trace commit? actions) := by
  induction actions using List.reverseRecOn with
  | nil => exact .start hidle
  | append_singleton front a ih =>
    rw [runAll_concat] at hfine
    rw [trace_concat] at hfits
    rw [runAll_concat, trace_concat, trace_concat]
    have hread : ∀ d ∈ s₀.trace read? front, (d.record 0).Fits :=
      fun d hd => hfits d (List.mem_append_left _ hd)
    have hfront := ih (fun c hc => hcalls c (List.mem_append_left _ hc)) (failed_of_act hfine) hread
    refine hfront.act (fun c hc => hcalls c ?_) hclosed hfine hread
    exact List.mem_append_right _ (List.mem_singleton.2 hc.symm)

end Session

/-- For any number of calls that bring one document up to date, whatever happens to its file
between their steps: every text that is read is taken up once, and the document is left as the
text that was taken up last, unless one of the same time was stored before. -/
theorem syncs_store_last {s₀ : Session} (hidle : s₀.tasks = []) {uri : String}
    (hclosed : s₀.workspace.isOpen uri = false) {actions : List Action}
    (hcalls : ∀ c, .call c ∈ actions → ∃ modified, c = .sync uri modified)
    (hfine : (s₀.runAll actions).failed = [])
    (hfits : ∀ d ∈ s₀.trace Session.read? actions, (d.record 0).Fits) :
    let s := s₀.runAll actions
    let reads := s₀.trace Session.read? actions
    let commits := s₀.trace Session.commit? actions
    s.workspace.isOpen uri = false ∧
    (s.tasks = [] → commits.Perm reads) ∧
    (commits = [] → s.workspace.store = s₀.workspace.store) ∧
    (∀ d, commits.getLast? = some d →
      ∃ d' ∈ reads, d'.uri = uri ∧ d'.modified = d.modified ∧ s.Stores d') ∧
    ((∀ d ∈ reads, ∀ d' ∈ reads, d'.modified = d.modified → d' = d) →
      ∀ d, commits.getLast? = some d → s.Stores d) := by
  intro s reads commits
  have h : Session.Syncing s₀ uri s reads commits :=
    Session.syncing_runAll hidle hclosed hcalls hfine hfits
  have hread {d : Document} (hd : d ∈ commits) : d ∈ reads :=
    h.perm.mem_iff.2 (List.mem_append_left _ hd)
  refine ⟨h.closed hclosed, fun hdone => ?_, fun hnone => (h.stale hnone).1, fun d hd => ?_,
    fun htimes d hd => ?_⟩
  · have hperm := h.perm
    rw [hdone, List.filterMap_nil, List.append_nil] at hperm
    exact hperm.symm
  · obtain ⟨d', hd', hfound⟩ := h.last d hd
    exact ⟨d', hread hd', hfound⟩
  · obtain ⟨d', hd', -, hmodified, hstores⟩ := h.last d hd
    exact htimes d (hread (List.mem_of_getLast? hd)) d' (hread hd') hmodified ▸ hstores

/-- A file that two calls read, with a change between them. -/
def overlappingReads : List Action :=
  [.change ⟨.ofList [("/a.php", .file (Bytes.ofText "<?php old();") 5)]⟩ 0,
    .call (.sync "file:///a.php" 5), .advance 0, .advance 0,
    .change ⟨.ofList [("/a.php", .file (Bytes.ofText "<?php new();") 6)]⟩ 0,
    .call (.sync "file:///a.php" 6), .advance 1, .advance 1]

/-- The text that a call reads of the file. -/
def overlapping (text : String) (modified : Int64) : Document :=
  Host.blank.parse "file:///a.php" text modified

theorem syncs_store_last_in_order :
    let actions := overlappingReads ++ [.advance 0, .advance 0]
    let s := Session.blank.runAll actions
    s.tasks = [] ∧ s.failed = [] ∧
    Session.blank.trace Session.read? actions =
      [overlapping "<?php old();" 5, overlapping "<?php new();" 6] ∧
    s.Stores (overlapping "<?php new();" 6) := by
  intro actions s
  have hcalls : ∀ c, .call c ∈ actions → ∃ modified, c = .sync "file:///a.php" modified := by
    intro c hc
    simp only [actions, overlappingReads, List.mem_append, List.mem_cons, Action.call.injEq,
      reduceCtorEq, List.not_mem_nil, or_false, false_or] at hc
    rcases hc with rfl | rfl <;> exact ⟨_, rfl⟩
  have hdone : s.tasks = [] := by decide +kernel
  have hfine : s.failed = [] := by decide +kernel
  have hreads : Session.blank.trace Session.read? actions =
      [overlapping "<?php old();" 5, overlapping "<?php new();" 6] := by decide +kernel
  have hidle : Session.blank.tasks = [] := rfl
  obtain ⟨-, -, -, -, hlast⟩ := syncs_store_last hidle rfl hcalls hfine (by decide +kernel)
  exact ⟨hdone, hfine, hreads, hlast (by decide +kernel) _ (by decide +kernel)⟩

/-- The time that a call is given for a file, and the one that the file has. -/
def Session.givenTime? (s : Session) : Action → Option (Int64 × Option Int64)
  | .call (.sync uri modified) =>
    some (modified, (Path.ofUri? uri).bind fun path => (s.host.modified path).toOption)
  | _ => none

/-- The call that has read the newer text stores it first, and the older text takes its place. -/
theorem sync_loses_text :
    let actions := overlappingReads ++ [.advance 1, .advance 0]
    let s := Session.blank.runAll actions
    Session.blank.trace Session.givenTime? actions = [(5, some 5), (6, some 6)] ∧
    s.tasks = [] ∧ s.failed = [] ∧
    Session.blank.trace Session.read? actions =
      [overlapping "<?php old();" 5, overlapping "<?php new();" 6] ∧
    (Index.document "file:///a.php").run
        (Session.blank.runAll (overlappingReads ++ [.advance 1])).workspace.store.rows =
      .ok (some ((overlapping "<?php new();" 6).record 0)) ∧
    (Index.document "file:///a.php").run s.workspace.store.rows =
      .ok (some ((overlapping "<?php old();" 5).record 0)) ∧
    (overlapping "<?php old();" 5).contentHash ≠ (overlapping "<?php new();" 6).contentHash := by
  decide +kernel

end PhpIndex
