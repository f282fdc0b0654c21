import PhpIndex.Proofs.Workspace.Runs
import Mathlib.Data.List.Nodup

/-!
# The order of the files

A run over a directory has one task for each file, and their steps may follow each other in any
order while the clock goes on. As long as no two files have one uri, each task finds the rows of its
document as they were at the start, so that it comes to the same as it would alone, and in the end
each file is counted once. To take one file after the other is one such order.
Main statements: `IndexReport.counters_ofOutcomes_of_perm`, `Stage.step`, `Indexing.runAll`,
`isRun_indexListed`.
-/
namespace PhpIndex
open scoped List

/-! ## Reports -/

namespace IndexReport

/-- The report with one more outcome. -/
def counted (r : IndexReport) (uri : String) : Except IndexError SyncOutcome → IndexReport
  | .ok (.indexed symbols) => { r with indexed := r.indexed + 1, symbols := r.symbols + symbols }
  | .ok .unchanged => { r with unchanged := r.unchanged + 1 }
  | .error e => r.addError uri e.message

/-- The report of outcomes in the order in which they were met. -/
def ofOutcomes (outcomes : List (String × Except IndexError SyncOutcome)) : IndexReport :=
  outcomes.foldl (fun r x => r.counted x.1 x.2) {}

/-- The numbers of a report, without the errors that were met first. -/
def counters (r : IndexReport) : IndexReport := { r with errors := [] }

def isIndexed : Except IndexError SyncOutcome → Bool
  | .ok (.indexed _) => true
  | _ => false

def isFailed : Except IndexError SyncOutcome → Bool
  | .error _ => true
  | .ok _ => false

variable {outcomes outcomes' : List (String × Except IndexError SyncOutcome)}

theorem counters_counted (r : IndexReport) (uri : String) (o : Except IndexError SyncOutcome) :
    (r.counted uri o).counters = (r.counters.counted uri o).counters := by
  rcases o with e | symbols | _ <;> rfl

/-- The order of the outcomes shows in the errors only. -/
theorem counters_ofOutcomes_of_perm (h : outcomes ~ outcomes') :
    (ofOutcomes outcomes).counters = (ofOutcomes outcomes').counters := by
  have hhom (l : List (String × Except IndexError SyncOutcome)) : (ofOutcomes l).counters =
      l.foldl (fun r x => (r.counted x.1 x.2).counters) {} :=
    (List.foldl_hom counters fun r x => (counters_counted r x.1 x.2).symm).symm
  rw [hhom, hhom]
  refine h.foldl_eq' (fun x _ y _ r => ?_) _
  obtain ⟨uri, e | symbols | _⟩ := x <;> obtain ⟨uri', e' | symbols' | _⟩ := y <;>
    simp [counted, counters, addError, Nat.add_right_comm]

theorem counts_foldl (r : IndexReport) :
    let r' := outcomes.foldl (fun r x => r.counted x.1 x.2) r
    r'.indexed = r.indexed + outcomes.countP (fun x => isIndexed x.2) ∧
      r'.failed = r.failed + outcomes.countP (fun x => isFailed x.2) ∧
      r'.indexed + r'.unchanged + r'.failed =
        r.indexed + r.unchanged + r.failed + outcomes.length := by
  induction outcomes generalizing r with
  | nil => exact ⟨rfl, rfl, rfl⟩
  | cons x rest ih =>
    obtain ⟨hindexed, hfailed, hall⟩ := ih (r.counted x.1 x.2)
    simp only [List.foldl_cons, List.countP_cons, List.length_cons, hall]
    rw [hindexed, hfailed]
    obtain ⟨uri, e | symbols | _⟩ := x <;> simp [counted, addError, isIndexed, isFailed] <;> omega

theorem indexed_ofOutcomes : (ofOutcomes outcomes).indexed =
    outcomes.countP (fun x => isIndexed x.2) :=
  (counts_foldl {}).1.trans (Nat.zero_add _)

theorem failed_ofOutcomes : (ofOutcomes outcomes).failed =
    outcomes.countP (fun x => isFailed x.2) :=
  (counts_foldl {}).2.1.trans (Nat.zero_add _)

/-- Every outcome counts once. -/
theorem handled_ofOutcomes : (ofOutcomes outcomes).indexed + (ofOutcomes outcomes).unchanged +
    (ofOutcomes outcomes).failed = outcomes.length :=
  (counts_foldl {}).2.2.trans (Nat.zero_add _)

end IndexReport

namespace Workspace

theorem indexCounted_eq (h : Host) (w : Workspace) (report : IndexReport) (path : String) :
    indexCounted h (w, report) path = ((w.indexPath h path).1,
      report.counted (Path.toUri h.cwd path) (w.indexPath h path).2) := by
  rw [indexCounted]
  rcases w.indexPath h path with ⟨w', e | symbols | _⟩ <;> rfl

end Workspace

/-! ## The steps of a file -/

/-- What a file's task has come to, if this step is its last. -/
def Task.outcome? (h : Host) (w : Workspace) : Task → Option (Except IndexError SyncOutcome)
  | stat path =>
    match h.modified path with
    | .ok _ => none
    | .error fault => some (.error (.fileRead path fault))
  | check uri modified =>
    match w.isSettled uri modified with
    | .ok false => none
    | .ok true => some (.ok .unchanged)
    | .error e => some (.error e)
  | read uri modified _ =>
    match Workspace.readFile h uri modified with
    | .ok _ => none
    | .error e => some (.error e)
  | commit again d => some (w.commit h again d).2
  | _ => none

namespace Workspace
variable {h : Host} {w w' : Workspace} {path : String} {t : Task}

/-- What bringing a file up to date leads to depends on what is planned only. -/
theorem snd_indexPath (hw : w.store.rows.Regular) : (w.indexPath h path).2 =
    (w.plan h path).map fun d? => d?.elim .unchanged fun d => .indexed d.symbols.length := by
  rw [indexPath_eq]
  rcases w.plan h path with e | _ | d
  · rfl
  · rfl
  · obtain ⟨s, hrun⟩ := hw.exists_run (.replace (d.version h.now))
    simp only [operate, hrun]
    rfl

theorem readFile_at_time (h : Host) (uri : String) (modified now : Int64) :
    readFile { h with now } uri modified = readFile h uri modified := by
  simp only [readFile, Host.readText, Host.parse, Host.path]

theorem plan_at_time (h : Host) (w : Workspace) (path : String) (now : Int64) :
    w.plan { h with now } path = w.plan h path := by
  simp only [plan, readFile_at_time, Host.modified, Host.path]

theorem filesRegular_at_time {files : List String} (hfiles : FilesRegular h files) (now : Int64) :
    FilesRegular { h with now } files := by
  simpa only [FilesRegular, readFile_at_time] using hfiles

/-- How far the task of a file may have come. -/
inductive Stage (h : Host) (w : Workspace) (path : String) : Task → Prop
  | stat : Stage h w path (.stat path)
  | check {modified : Int64} (hmodified : h.modified path = .ok modified) :
      Stage h w path (.check (Path.toUri h.cwd path) modified)
  | read {modified : Int64} (hmodified : h.modified path = .ok modified)
      (hstale : w.isSettled (Path.toUri h.cwd path) modified = .ok false) :
      Stage h w path (.read (Path.toUri h.cwd path) modified false)
  | commit {d : Document} (hplan : w.plan h path = .ok (some d)) :
      Stage h w path (.commit false d)

namespace Stage

theorem at_time (hstage : Stage h w path t) (now : Int64) : Stage { h with now } w path t := by
  cases hstage with
  | stat => exact .stat
  | check hmodified => exact .check hmodified
  | read hmodified hstale => exact .read hmodified hstale
  | commit hplan => exact .commit ((plan_at_time h w path now).trans hplan)

theorem uri (hstage : Stage h w path t) : t.uri h.cwd = Path.toUri h.cwd path := by
  cases hstage with
  | commit hplan => exact uri_of_plan hplan
  | _ => rfl

/-- Where the rows of its document are as they were at the start, a file's task goes on as it would
have then, and its last step does what is planned. -/
theorem step (hstage : Stage h w path t) (hopened : w'.opened = w.opened)
    (hrecord : w'.store.rows.get? (recordKey (Path.toUri h.cwd path)) =
      w.store.rows.get? (recordKey (Path.toUri h.cwd path))) :
    (∃ next, t.step h w' = (w', .ok (some next)) ∧ t.outcome? h w' = none ∧
      Stage h w path next) ∨
    t.step h w' = (w'.indexPath h path).map id (·.map fun _ => none) ∧
      t.outcome? h w' = some (w'.indexPath h path).2 := by
  have hsettled' := isSettled_congr hopened hrecord
  cases hstage with
  | stat =>
    cases hmodified : h.modified path with
    | ok modified =>
      refine .inl ⟨.check (Path.toUri h.cwd path) modified, ?_, ?_, .check hmodified⟩
      · simp only [Task.step, hmodified]
      · simp only [Task.outcome?, hmodified]
    | error fault =>
      have hindex : w'.indexPath h path = (w', .error (.fileRead path fault)) := by
        simp only [indexPath, hmodified]
      rw [hindex]
      refine .inr ⟨?_, ?_⟩
      · simp only [Task.step, hmodified]
        rfl
      · simp only [Task.outcome?, hmodified]
  | @check modified hmodified =>
    rcases hsettled : w'.isSettled (Path.toUri h.cwd path) modified with e | _ | _
    case ok.false =>
      refine .inl ⟨.read (Path.toUri h.cwd path) modified false, ?_, ?_,
        .read hmodified ((hsettled' modified).symm.trans hsettled)⟩
      · simp only [Task.step, hsettled]
        rfl
      · simp only [Task.outcome?, hsettled]
    all_goals
      refine .inr ?_
      simp only [indexPath, sync, hmodified, Task.step, Task.outcome?, hsettled]
      exact ⟨rfl, trivial⟩
  | @read modified hmodified hstale =>
    have hsettled := (hsettled' modified).trans hstale
    cases hread : readFile h (Path.toUri h.cwd path) modified with
    | ok d =>
      have hplan : w.plan h path = .ok (some d) := by
        simp only [plan, hmodified, hstale, hread]
        rfl
      refine .inl ⟨.commit false d, ?_, ?_, .commit hplan⟩
      · simp only [Task.step, hread]
        rfl
      · simp only [Task.outcome?, hread]
    | error e =>
      refine .inr ?_
      simp only [indexPath, sync, indexFromDisk, hmodified, hsettled, Task.step, Task.outcome?,
        hread]
      exact ⟨rfl, trivial⟩
  | @commit d hplan =>
    obtain ⟨modified, hmodified, hstale, hread⟩ := of_plan_eq_some hplan
    have hsettled := (hsettled' modified).trans hstale
    have hindex : w'.indexPath h path = w'.commit h false d := by
      simp only [indexPath, sync, indexFromDisk, hmodified, hsettled, hread]
    rw [hindex]
    exact .inr ⟨rfl, rfl⟩

end Stage

/-! ## What a file does to the store -/

/-- Whether a document of one of the files is operated on. -/
def OperatesOn (h : Host) (files : List String) (op : Operation) : Prop :=
  op.Regular ∧ ∃ path ∈ files, op.uri = Path.toUri h.cwd path

def isPlanned (h : Host) (w : Workspace) (path : String) : Bool :=
  (w.plan h path).toOption.join.isSome

theorem follows_operatesOn (hfile : FilesRegular h [path]) :
    Follows (OperatesOn h [path]) w (w.indexPath h path).1 :=
  (follows_indexPath (List.mem_singleton_self path)).mono fun _ hop =>
    ⟨regular_of_storesListed hfile hop, (uri_of_storesListed hop).2⟩

theorem dirty_indexPath (hw : w.store.rows.Regular) (path : String) :
    (w.indexPath h path).1.store.dirty = (w.store.dirty || w.isPlanned h path) ∧
      (w.indexPath h path).1.store.persistent = w.store.persistent := by
  rw [indexPath_eq, isPlanned]
  rcases w.plan h path with e | _ | d
  · exact ⟨(Bool.or_false _).symm, rfl⟩
  · exact ⟨(Bool.or_false _).symm, rfl⟩
  · obtain ⟨s, hrun⟩ := hw.exists_run (.replace (d.version h.now))
    obtain ⟨hdirty, hpersistent⟩ := Store.dirty_of_run hrun
    simp only [operate, hrun]
    exact ⟨hdirty.trans (Bool.or_true _).symm, hpersistent⟩

end Workspace

/-! ## The run of all tasks -/

/-- Whether the action is one of a run: a task takes a step, or time passes. -/
def Action.IsStep (disk : Disk) : Action → Prop
  | .call _ => False
  | .advance _ => True
  | .change disk' _ => disk' = disk

namespace Session

/-- A run over files of which nothing is done yet. -/
def indexing (h : Host) (w : Workspace) (files : List String) : Session :=
  ⟨h, w, files.map .stat, []⟩

/-- What a task has come to that takes its last step, with the uri of its file. -/
def ended? (s : Session) (a : Action) : Option (String × Except IndexError SyncOutcome) :=
  (s.task? a).bind fun t => (t.outcome? s.host s.workspace).map fun o => (t.uri s.host.cwd, o)

def report (s : Session) (actions : List Action) : IndexReport :=
  .ofOutcomes (s.trace ended? actions)

end Session

namespace Workspace

/-- What a file comes to in the workspace as it is, with its uri. -/
def outcomeOf (h : Host) (w : Workspace) (path : String) : String × Except IndexError SyncOutcome :=
  (Path.toUri h.cwd path, (w.indexPath h path).2)

/-- What holds of a run when some of its files are done. -/
structure Indexing (h : Host) (w : Workspace) (files : List String) (s : Session)
    (done : List String) : Prop where
  host : ∃ now, s.host = { h with now }
  follows : Follows (OperatesOn h done) w s.workspace
  /-- Each file is done or has one task. -/
  left : ∃ left : List (String × Task), files ~ done ++ left.map Prod.fst ∧
    s.tasks ~ left.map Prod.snd ∧ ∀ x ∈ left, Stage h w x.1 x.2
  updated : ∀ path ∈ done, ∃ now, w.IsUpdated { h with now } path s.workspace.store.rows
  dirty : s.workspace.store.dirty = (w.store.dirty || done.any (w.isPlanned h))
  persistent : s.workspace.store.persistent = w.store.persistent

namespace Indexing
variable {h : Host} {w : Workspace} {files done : List String} {s : Session} {a : Action}

theorem start (start : Int64) :
    Indexing h w files (.indexing { h with now := start } w files) [] where
  host := ⟨start, rfl⟩
  follows := .refl
  left := by
    refine ⟨files.map fun path => (path, .stat path), ?_, ?_, fun x hx => ?_⟩
    · rw [List.map_map, List.nil_append]
      exact (List.map_id' files).symm ▸ .refl _
    · rw [List.map_map]
      exact .refl _
    · obtain ⟨path, -, rfl⟩ := List.mem_map.1 hx
      exact .stat
  updated := nofun
  dirty := (Bool.or_false _).symm
  persistent := rfl

theorem regular (hi : Indexing h w files s done) (hw : w.store.rows.Regular) :
    s.workspace.store.rows.Regular :=
  hi.follows.rows.regular hw fun _ hop => hop.1

/-- A document of which no file is done has the rows that it had at the start. -/
theorem agreeOn {path : String} (hi : Indexing h w files s done) (hw : w.store.rows.Regular)
    (hfiles : FilesRegular h files) (hpath : path ∈ files)
    (hothers : ∀ p ∈ done, Path.toUri h.cwd p ≠ Path.toUri h.cwd path) :
    Rows.AgreeOn (Path.toUri h.cwd path) s.workspace.store.rows w.store.rows := by
  refine hi.follows.rows.agreeOn hw (fun _ hop => hop.1) (fun op hop => ?_) (hfiles path hpath).1
  obtain ⟨-, p, hp, huri⟩ := hop
  exact fun heq => hothers p hp (huri.symm.trans heq)

theorem plan_eq {path : String} (hi : Indexing h w files s done)
    (hagree : Rows.AgreeOn (Path.toUri h.cwd path) s.workspace.store.rows w.store.rows) :
    s.workspace.plan s.host path = w.plan h path := by
  obtain ⟨now, hnow⟩ := hi.host
  rw [hnow, plan_at_time, plan_congr hi.follows.opened (hagree _ (owned_recordKey _))]

/-- The task that goes on is that of a file which is not done. -/
theorem exists_of_task {t : Task} (hi : Indexing h w files s done) (htask : s.task? a = some t) :
    ∃ (path : String) (rest : List (String × Task)),
      files ~ done ++ path :: rest.map Prod.fst ∧ Stage h w path t ∧
      (∀ x ∈ rest, Stage h w x.1 x.2) ∧
      (s.act a).tasks ~ (t.next? s.host s.workspace).toList ++ rest.map Prod.snd := by
  obtain ⟨left, hperm, htasks, hstages⟩ := hi.left
  obtain ⟨⟨path, t'⟩, hx, ht⟩ := List.mem_map.1
    (htasks.mem_iff.1 (Session.mem_tasks_of_task htask))
  obtain rfl : t = t' := ht.symm
  obtain ⟨front, back, rfl⟩ := List.append_of_mem hx
  have hmiddle : front ++ (path, t) :: back ~ (path, t) :: (front ++ back) := List.perm_middle
  obtain ⟨others, hbefore, hafter⟩ := Session.perm_tasks_act htask
  have hothers : others ~ (front ++ back).map Prod.snd :=
    (hbefore.symm.trans (htasks.trans (hmiddle.map Prod.snd))).cons_inv
  exact ⟨path, front ++ back, hperm.trans ((hmiddle.map Prod.fst).append_left done), hstages _ hx,
    fun x hx => hstages x (hmiddle.mem_iff.2 (List.mem_cons_of_mem _ hx)),
    hafter.trans (hothers.append_left _)⟩

/-- A task that has more steps before it leaves the workspace. -/
theorem continued {path : String} {next : Task} {rest : List (String × Task)}
    (hi : Indexing h w files s done) (hleft : files ~ done ++ path :: rest.map Prod.fst)
    (hnext : Stage h w path next) (hrest : ∀ x ∈ rest, Stage h w x.1 x.2)
    (hhost : (s.act a).host = s.host) (htasks : (s.act a).tasks ~ next :: rest.map Prod.snd)
    (hworkspace : (s.act a).workspace = s.workspace) : Indexing h w files (s.act a) done where
  host := hhost ▸ hi.host
  follows := hworkspace ▸ hi.follows
  left := ⟨(path, next) :: rest, hleft, htasks, List.forall_mem_cons.2 ⟨hnext, hrest⟩⟩
  updated := hworkspace ▸ hi.updated
  dirty := hworkspace ▸ hi.dirty
  persistent := hworkspace ▸ hi.persistent

/-- A task whose step is its last does to the workspace what its file does. -/
theorem ended {path : String} {rest : List (String × Task)}
    (hi : Indexing h w files s done) (hw : w.store.rows.Regular) (hfiles : FilesRegular h files)
    (hleft : files ~ done ++ path :: rest.map Prod.fst)
    (hothers : ∀ p ∈ done, Path.toUri h.cwd p ≠ Path.toUri h.cwd path)
    (hrest : ∀ x ∈ rest, Stage h w x.1 x.2) (hhost : (s.act a).host = s.host)
    (htasks : (s.act a).tasks ~ rest.map Prod.snd)
    (hworkspace : (s.act a).workspace = (s.workspace.indexPath s.host path).1) :
    Indexing h w files (s.act a) (done ++ [path]) := by
  obtain ⟨now, hnow⟩ := hi.host
  have hpath : path ∈ files := hleft.mem_iff.2 (List.mem_append_right _ List.mem_cons_self)
  have hregular := hi.regular hw
  have hagree := hi.agreeOn hw hfiles hpath hothers
  have hfile : FilesRegular { h with now } [path] :=
    (filesRegular_at_time hfiles now).mono (List.cons_subset.2 ⟨hpath, List.nil_subset _⟩)
  have hstep : Follows (OperatesOn h [path]) s.workspace (s.act a).workspace := by
    rw [hworkspace, hnow]
    exact (follows_operatesOn hfile).mono fun _ hop => ⟨hop.1, hop.2⟩
  obtain ⟨hdirty, hpersistent⟩ := dirty_indexPath (h := s.host) hregular path
  constructor
  case host => exact ⟨now, hhost.trans hnow⟩
  case follows =>
    refine (hi.follows.mono ?_).trans (hstep.mono ?_)
    · rintro op ⟨hop, p, hp, huri⟩
      exact ⟨hop, p, List.mem_append_left _ hp, huri⟩
    · rintro op ⟨hop, p, hp, huri⟩
      exact ⟨hop, p, List.mem_append_right _ hp, huri⟩
  case left => exact ⟨rest, by rwa [List.append_assoc], htasks, hrest⟩
  case updated =>
    intro p hp
    rcases List.mem_append.1 hp with hdone | hlast
    · obtain ⟨before, hupdated⟩ := hi.updated p hdone
      have hp' : p ∈ files := hleft.mem_iff.2 (List.mem_append_left _ hdone)
      refine ⟨before, isUpdated_of_agreeOn ?_ hupdated⟩
      refine hstep.rows.agreeOn hregular (fun _ hop => hop.1) (fun op hop => ?_) (hfiles p hp').1
      obtain ⟨-, q, hq, huri⟩ := hop
      obtain rfl := List.mem_singleton.1 hq
      exact fun heq => hothers p hdone (heq.symm.trans huri)
    · obtain rfl := List.mem_singleton.1 hlast
      rw [hworkspace, hnow]
      exact ⟨now, isUpdated_of_other hw hi.follows.opened hagree (isUpdated_indexPath hregular)⟩
  case dirty =>
    have hplanned : s.workspace.isPlanned s.host path = w.isPlanned h path := by
      rw [isPlanned, hi.plan_eq hagree, isPlanned]
    rw [hworkspace, hdirty, hi.dirty, hplanned, List.any_append, List.any_cons, List.any_nil,
      Bool.or_false, Bool.or_assoc]
  case persistent => rw [hworkspace, hpersistent, hi.persistent]

/-- Each action leaves the run as it is, or takes one of its files to what it would have come to at
the start. -/
theorem act (hi : Indexing h w files s done) (hw : w.store.rows.Regular)
    (hfiles : FilesRegular h files) (hdistinct : (files.map (Path.toUri h.cwd)).Nodup)
    (ha : a.IsStep h.disk) : ∃ done', Indexing h w files (s.act a) done' ∧
      done'.map (w.outcomeOf h) = done.map (w.outcomeOf h) ++ (s.ended? a).toList := by
  obtain ⟨now, hnow⟩ := hi.host
  cases htask : s.task? a with
  | none =>
    have hnothing : (s.ended? a).toList = [] := by rw [Session.ended?, htask]; rfl
    refine ⟨done, ?_, by rw [hnothing, List.append_nil]⟩
    cases a with
    | call c => exact ha.elim
    | change disk now' =>
      obtain rfl : disk = h.disk := ha
      refine { hi with host := ⟨now', ?_⟩ }
      simp only [Session.act, hnow]
    | advance i =>
      simp only [Session.act, show s.tasks[i]? = none from htask]
      exact hi
  | some t =>
    obtain ⟨path, rest, hleft, hstage, hrest, htasks⟩ := hi.exists_of_task htask
    have hothers : ∀ p ∈ done, Path.toUri h.cwd p ≠ Path.toUri h.cwd path := by
      have hnodup := ((hleft.map (Path.toUri h.cwd)).nodup_iff).1 hdistinct
      rw [List.map_append, List.nodup_append] at hnodup
      exact fun p hp => hnodup.2.2 _ (List.mem_map_of_mem hp) _ (List.mem_map_of_mem
        List.mem_cons_self)
    have hpath : path ∈ files := hleft.mem_iff.2 (List.mem_append_right _ List.mem_cons_self)
    have hagree := hi.agreeOn hw hfiles hpath hothers
    have hhost : (s.act a).host = s.host := by
      obtain ⟨i, -, hact⟩ := Session.act_of_task htask
      rw [hact, Session.host_step]
    have hworkspace := Session.workspace_act_of_task htask
    have hhere : Stage s.host w path t := hnow ▸ hstage.at_time now
    rcases hhere.step hi.follows.opened (hnow ▸ hagree _ (owned_recordKey _)) with
      ⟨next, hstep, houtcome, hnext⟩ | ⟨hstep, houtcome⟩
    · -- The task has more steps before it.
      have hgoes : t.next? s.host s.workspace = some next := by rw [Task.next?, hstep]; rfl
      have hnext' : Stage h w path next := by
        rw [hnow] at hnext
        exact hnext.at_time h.now
      rw [hgoes] at htasks
      refine ⟨done, ?_, by rw [Session.ended?, htask, Option.bind_some, houtcome]; simp⟩
      exact hi.continued hleft hnext' hrest hhost htasks
        (hworkspace.trans (congrArg Prod.fst hstep))
    · -- It is the last step of the task.
      have hends : t.next? s.host s.workspace = none := by
        rw [Task.next?, hstep]
        rcases s.workspace.indexPath s.host path with ⟨_, e | outcome⟩ <;> rfl
      rw [hends] at htasks
      refine ⟨done ++ [path], hi.ended hw hfiles hleft hothers hrest hhost htasks
        (hworkspace.trans (congrArg Prod.fst hstep)), ?_⟩
      have hcomes : (s.workspace.indexPath s.host path).2 = (w.indexPath h path).2 := by
        rw [snd_indexPath (hi.regular hw), snd_indexPath hw, hi.plan_eq hagree]
      have huri : t.uri s.host.cwd = Path.toUri h.cwd path := by
        rw [hnow]
        exact hstage.uri
      rw [Session.ended?, htask, Option.bind_some, houtcome, Option.map_some, List.map_append,
        hcomes, huri]
      rfl

theorem runAll {s₀ : Session} {actions : List Action} (hi : Indexing h w files s₀ [])
    (hw : w.store.rows.Regular) (hfiles : FilesRegular h files)
    (hdistinct : (files.map (Path.toUri h.cwd)).Nodup)
    (hactions : ∀ a ∈ actions, a.IsStep h.disk) :
    ∃ done, Indexing h w files (s₀.runAll actions) done ∧
      s₀.trace Session.ended? actions = done.map (w.outcomeOf h) := by
  induction actions using List.reverseRecOn with
  | nil => exact ⟨[], hi, rfl⟩
  | append_singleton front a ih =>
    obtain ⟨done, hfront, htrace⟩ := ih fun b hb => hactions b (List.mem_append_left _ hb)
    obtain ⟨done', hlast, hdone⟩ := hfront.act hw hfiles hdistinct
      (hactions a (List.mem_append_right _ List.mem_cons_self))
    refine ⟨done', ?_, ?_⟩
    · rwa [Session.runAll_concat]
    · rw [Session.trace_concat, htrace, hdone]

end Indexing

/-- What holds of a workspace when all files are done. -/
structure Indexed (h : Host) (w : Workspace) (files : List String) (w₁ : Workspace) : Prop where
  follows : Follows (OperatesOn h files) w w₁
  updated : ∀ path ∈ files, ∃ now, w.IsUpdated { h with now } path w₁.store.rows
  dirty : w₁.store.dirty = (w.store.dirty || files.any (w.isPlanned h))
  persistent : w₁.store.persistent = w.store.persistent

section Runs
variable {h : Host} {w : Workspace} {files done : List String} {s : Session} {root : String}

theorem Indexing.perm_of_idle (hi : Indexing h w files s done) (hidle : s.tasks = []) :
    done ~ files := by
  obtain ⟨left, hperm, htasks, -⟩ := hi.left
  rw [hidle] at htasks
  obtain rfl : left = [] := List.map_eq_nil_iff.1 (List.nil_perm.1 htasks)
  rw [List.map_nil, List.append_nil] at hperm
  exact hperm.symm

theorem Indexing.indexed (hi : Indexing h w files s done) (hperm : done ~ files) :
    Indexed h w files s.workspace where
  follows := hi.follows.mono fun _ ⟨hop, p, hp, huri⟩ => ⟨hop, p, hperm.mem_iff.1 hp, huri⟩
  updated path hpath := hi.updated path (hperm.mem_iff.2 hpath)
  dirty := hi.dirty.trans (congrArg _ hperm.any_eq)
  persistent := hi.persistent

/-- Whether this is what a run over the files listed below a directory leads to whose tasks take
their steps in some order; the time of the host is that at its end. -/
def IsRun (h : Host) (w : Workspace) (root : String) (files : List String)
    (run : Workspace × Disk × Except IndexError IndexReport) : Prop :=
  ∃ start actions, (∀ a ∈ actions, a.IsStep h.disk) ∧
    let s₀ := Session.indexing { h with now := start } w files
    let s := s₀.runAll actions
    s.tasks = [] ∧ s.host.now = h.now ∧
      run = s.workspace.finishIndexing h (s₀.report actions) root files

/-- When all tasks have ended, each file has come to what it would have come to at the start. -/
theorem exists_of_isRun {run : Workspace × Disk × Except IndexError IndexReport}
    (hrun : IsRun h w root files run) (hw : w.store.rows.Regular) (hfiles : FilesRegular h files)
    (hdistinct : (files.map (Path.toUri h.cwd)).Nodup) :
    ∃ w₁ outcomes, Indexed h w files w₁ ∧ outcomes ~ files.map (w.outcomeOf h) ∧
      run = w₁.finishIndexing h (.ofOutcomes outcomes) root files := by
  obtain ⟨start, actions, hactions, hidle, -, rfl⟩ := hrun
  obtain ⟨done, hi, htrace⟩ := (Indexing.start start).runAll hw hfiles hdistinct hactions
  have hperm := hi.perm_of_idle hidle
  refine ⟨_, _, hi.indexed hperm, ?_, rfl⟩
  rw [htrace]
  exact hperm.map _

/-! ### One file after the other -/

/-- The first task is brought to its end, and no other takes a step. -/
theorem exists_schedule_file {path : String} {t : Task} (hstage : Stage h w path t)
    (rest : List Task) (failed : List IndexError) :
    ∃ actions, (∀ a ∈ actions, a = .advance 0) ∧
      (∃ failed', Session.runAll ⟨h, w, t :: rest, failed⟩ actions =
        ⟨h, (w.indexPath h path).1, rest, failed'⟩) ∧
      Session.trace Session.ended? ⟨h, w, t :: rest, failed⟩ actions = [w.outcomeOf h path] := by
  induction hleft : t.left using Nat.strong_induction_on generalizing t failed with
  | _ n ih =>
    rcases hstage.step rfl rfl with ⟨next, hstep, houtcome, hnext⟩ | ⟨hstep, houtcome⟩
    · have hlt : next.left < n := hleft ▸ (Task.leaves_of_step (congrArg Prod.snd hstep)).left_lt
      obtain ⟨actions, hall, ⟨failed', hrun⟩, htrace⟩ :=
        ih next.left hlt hnext (failed ++ (t.fault? h w).toList) rfl
      have hact : Session.act ⟨h, w, t :: rest, failed⟩ (.advance 0) =
          ⟨h, w, next :: rest, failed ++ (t.fault? h w).toList⟩ := by
        simp only [Session.act, List.getElem?_cons_zero, Session.step, Task.next?, hstep]
        rfl
      have hended : Session.ended? ⟨h, w, t :: rest, failed⟩ (.advance 0) = none := by
        simp only [Session.ended?, Session.task?, List.getElem?_cons_zero, Option.bind_some,
          houtcome, Option.map_none]
      refine ⟨.advance 0 :: actions, List.forall_mem_cons.2 ⟨rfl, hall⟩, ⟨failed', ?_⟩, ?_⟩
      · rw [Session.runAll, List.foldl_cons, hact]
        exact hrun
      · rw [Session.trace, hact, hended, htrace]
        rfl
    · refine ⟨[.advance 0], by simp, ⟨failed ++ (t.fault? h w).toList, ?_⟩, ?_⟩
      · simp only [Session.runAll, List.foldl_cons, List.foldl_nil, Session.act,
          List.getElem?_cons_zero, Session.step, Task.next?, hstep]
        rcases w.indexPath h path with ⟨w', e | outcome⟩ <;> rfl
      · simp only [Session.trace, Session.ended?, Session.task?, List.getElem?_cons_zero,
          Option.bind_some, houtcome, hstage.uri]
        rfl

theorem exists_schedule (files : List String) (w : Workspace) (report : IndexReport)
    (failed : List IndexError) : ∃ actions, (∀ a ∈ actions, a = .advance 0) ∧
      (∃ failed', Session.runAll ⟨h, w, files.map .stat, failed⟩ actions =
        ⟨h, (files.foldl (indexCounted h) (w, report)).1, [], failed'⟩) ∧
      (files.foldl (indexCounted h) (w, report)).2 =
        (Session.trace Session.ended? ⟨h, w, files.map .stat, failed⟩ actions).foldl
          (fun r x => r.counted x.1 x.2) report := by
  induction files generalizing w report failed with
  | nil => exact ⟨[], nofun, ⟨failed, rfl⟩, rfl⟩
  | cons path rest ih =>
    obtain ⟨first, hfirst, ⟨failed₁, hrun₁⟩, htrace₁⟩ :=
      exists_schedule_file (.stat : Stage h w path (.stat path)) (rest.map .stat) failed
    obtain ⟨actions, hactions, ⟨failed₂, hrun₂⟩, hreport⟩ := ih (w.indexPath h path).1
      (report.counted (Path.toUri h.cwd path) (w.indexPath h path).2) failed₁
    refine ⟨first ++ actions, fun a ha => (List.mem_append.1 ha).elim (hfirst a) (hactions a),
      ⟨failed₂, ?_⟩, ?_⟩
    · rw [Session.runAll_append, List.map_cons, hrun₁, hrun₂, List.foldl_cons, indexCounted_eq]
    · rw [Session.trace_append, List.map_cons, hrun₁, htrace₁, List.foldl_append, List.foldl_cons,
        indexCounted_eq]
      exact hreport

/-- To bring one file after the other up to date is one of the runs. -/
theorem isRun_indexListed (h : Host) (w : Workspace) (root : String) (files : List String) :
    IsRun h w root files (w.indexListed h root files) := by
  obtain ⟨actions, hactions, ⟨failed, hrun⟩, hreport⟩ := exists_schedule (h := h) files w {} []
  refine ⟨h.now, actions, fun a ha => hactions a ha ▸ trivial, ?_, ?_, ?_⟩
  · rw [Session.indexing, hrun]
  · rw [Session.indexing, hrun]
  · rw [indexListed_eq, Session.indexing, Session.report, hrun, hreport]
    rfl

end Runs
end Workspace
end PhpIndex
