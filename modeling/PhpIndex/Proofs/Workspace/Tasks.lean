import PhpIndex.Proofs.Index.History
import PhpIndex.Proofs.Workspace.Overlay
import PhpIndex.Workspace.Indexing

/-!
# Steps of calls

What a call does under the lock of its document is one step, and so is each look that it takes on
its way there: at the store, at the time of a file, at the file itself. A call whose steps follow
each other does what it does alone.
Main statements: `Task.leaves_of_step`, `Task.operates_of_operation`, `Task.opened_step`,
`Call.alone_task`.
-/
namespace PhpIndex

namespace Workspace
variable {h : Host} {uri : String} {modified : Int64} {d : Document}

theorem uri_readFile (hread : readFile h uri modified = .ok d) :
    d.uri = uri ∧ d.modified = modified := by
  unfold readFile at hread
  split at hread
  · cases hread
  · split at hread
    · cases hread
      exact ⟨rfl, rfl⟩
    · cases hread

/-- Whether what was read from a file is not to be stored any more. -/
def isPassed (w : Workspace) (again : Bool) (d : Document) : Except IndexError Bool :=
  if again then .ok (w.isOpen d.uri) else w.isSettled d.uri d.modified

theorem not_isOpen_of_isPassed {w : Workspace} {again : Bool} {d : Document}
    (h : w.isPassed again d = .ok false) : w.isOpen d.uri = false := by
  simp only [isPassed, isSettled] at h
  cases again with
  | true => exact Except.ok.inj h
  | false =>
    cases hopen : w.isOpen d.uri with
    | true =>
      rw [hopen] at h
      cases h
    | false => rfl

def operate (w : Workspace) (op : Operation) : Workspace × Except IndexError Unit :=
  match op.run w.store with
  | .ok store => ({ w with store }, .ok ())
  | .error e => (w, .error (.store e))

theorem storeDocument_eq (h : Host) (w : Workspace) (d : Document) :
    w.storeDocument h d = w.operate (.replace (d.version h.now)) := rfl

theorem commit_eq (h : Host) (w : Workspace) (again : Bool) (d : Document) : w.commit h again d =
    match w.isPassed again d with
    | .error e => (w, .error e)
    | .ok true => (w, .ok .unchanged)
    | .ok false => (w.operate (.replace (d.version h.now))).map id
        (·.map fun _ => .indexed d.symbols.length) := rfl

theorem remove_eq (w : Workspace) (uri : String) :
    (w.remove uri).map id (·.map fun _ => ()) = w.operate (.remove uri) := by
  simp only [remove, operate, Operation.run]
  cases w.store.removeDocument uri <;> rfl

variable {w : Workspace} {op : Operation}

theorem operate_cases (w : Workspace) (op : Operation) :
    (∃ s', op.run w.store = .ok s' ∧ w.operate op = ({ w with store := s' }, .ok ())) ∨
      ∃ e, op.run w.store = .error e ∧ w.operate op = (w, .error (.store e)) := by
  unfold operate
  cases op.run w.store with
  | ok s' => exact .inl ⟨s', rfl, rfl⟩
  | error e => exact .inr ⟨e, rfl, rfl⟩

@[simp] theorem opened_operate : (w.operate op).1.opened = w.opened := by
  unfold operate
  split <;> rfl

end Workspace

/-- What may be asked of a workspace. To change the text of an open document is to open it
again. -/
inductive Call where
  | edit (uri text : String)
  | index (d : Document)
  | sync (uri : String) (modified : Int64)
  | indexPath (path : String)
  | close (uri : String)
  | remove (uri : String)

/-- What is left to do of a call, by the next step: after `check`, `stat`, `read`, `forget` and
`locate` there may be more of them. -/
inductive Task where
  | edit (uri text : String)
  | index (d : Document)
  | stat (path : String)
  | check (uri : String) (modified : Int64)
  | read (uri : String) (modified : Int64) (again : Bool)
  | commit (again : Bool) (d : Document)
  | forget (uri : String)
  | locate (uri : String)
  | remove (uri : String)

namespace Call

def task : Call → Task
  | edit uri text => .edit uri text
  | index d => .index d
  | sync uri modified => .check uri modified
  | indexPath path => .stat path
  | close uri => .forget uri
  | remove uri => .remove uri

/-- What the call does alone. -/
def run (h : Host) (w : Workspace) : Call → Workspace × Except IndexError Unit
  | edit uri text => ((w.openDocument h uri text).1, .ok ())
  | index d => w.indexDocument h d
  | sync uri modified => (w.sync h uri modified).map id (·.map fun _ => ())
  | indexPath path => (w.indexPath h path).map id (·.map fun _ => ())
  | close uri => w.close h uri
  | remove uri => (w.remove uri).map id (·.map fun _ => ())

end Call

namespace Task

/-- Where a document is read from when it was closed, if it is still there. -/
def afterClose (h : Host) (uri : String) : Task :=
  match (Path.ofUri? uri).bind fun path => (h.modified path).toOption with
  | some modified => read uri modified true
  | none => remove uri

/-- One step, and what is left to do after it. -/
def step (h : Host) (w : Workspace) : Task → Workspace × Except IndexError (Option Task)
  | edit uri text => ((w.openDocument h uri text).1, .ok none)
  | index d => (w.indexDocument h d).map id (·.map fun _ => none)
  | stat path =>
    (w, match h.modified path with
      | .ok modified => .ok (some (check (Path.toUri h.cwd path) modified))
      | .error fault => .error (.fileRead path fault))
  | check uri modified =>
    (w, (w.isSettled uri modified).map fun settled =>
      if settled then none else some (read uri modified false))
  | read uri modified again =>
    (w, (Workspace.readFile h uri modified).map fun d => some (commit again d))
  | commit again d => (w.commit h again d).map id (·.map fun _ => none)
  | forget uri => (w.forget uri, .ok (some (locate uri)))
  | locate uri => (w, .ok (some (afterClose h uri)))
  | remove uri => (w.remove uri).map id (·.map fun _ => none)

/-! ### What a step does -/

/-- The document that a task is about. -/
def uri (cwd : String) : Task → String
  | stat path => Path.toUri cwd path
  | index d | commit _ d => d.uri
  | edit uri _ | check uri _ | read uri .. | forget uri | locate uri | remove uri => uri

/-- What is left to do after a step. -/
def next? (h : Host) (w : Workspace) (t : Task) : Option Task := (t.step h w).2.toOption.join

def fault? (h : Host) (w : Workspace) (t : Task) : Option IndexError :=
  match (t.step h w).2 with
  | .error e => some e
  | .ok _ => none

/-- What a step may leave to do. -/
inductive Leaves (h : Host) (w : Workspace) : Task → Task → Prop
  | checks {path : String} {modified : Int64} (hmodified : h.modified path = .ok modified) :
      Leaves h w (stat path) (check (Path.toUri h.cwd path) modified)
  | reads {uri : String} {modified : Int64} (hstale : w.isSettled uri modified = .ok false) :
      Leaves h w (check uri modified) (read uri modified false)
  | commits {uri : String} {modified : Int64} {again : Bool} {d : Document}
      (hread : Workspace.readFile h uri modified = .ok d) :
      Leaves h w (read uri modified again) (commit again d)
  | locates {uri : String} : Leaves h w (forget uri) (locate uri)
  | readsAgain {uri : String} {modified : Int64} :
      Leaves h w (locate uri) (read uri modified true)
  | removes {uri : String} : Leaves h w (locate uri) (remove uri)

variable {h : Host} {w : Workspace} {t next : Task}

theorem leaves_of_step (hstep : (t.step h w).2 = .ok (some next)) : t.Leaves h w next := by
  cases t with
  | edit uri text => cases hstep
  | index d =>
    obtain ⟨_, _, hnone⟩ := map_eq_ok hstep
    cases hnone
  | stat path =>
    simp only [step] at hstep
    cases hmodified : h.modified path with
    | error fault =>
      rw [hmodified] at hstep
      cases hstep
    | ok modified =>
      rw [hmodified] at hstep
      cases hstep
      exact .checks hmodified
  | check uri modified =>
    obtain ⟨settled, hsettled, hnext⟩ := map_eq_ok hstep
    cases settled with
    | true => cases hnext
    | false =>
      cases hnext
      exact .reads hsettled
  | read uri modified again =>
    obtain ⟨d, hread, hnext⟩ := map_eq_ok hstep
    cases hnext
    exact .commits hread
  | commit again d =>
    obtain ⟨_, _, hnone⟩ := map_eq_ok hstep
    cases hnone
  | forget uri =>
    cases hstep
    exact .locates
  | locate uri =>
    simp only [step, afterClose] at hstep
    cases hmodified : (Path.ofUri? uri).bind fun path => (h.modified path).toOption with
    | none =>
      rw [hmodified] at hstep
      cases hstep
      exact .removes
    | some modified =>
      rw [hmodified] at hstep
      cases hstep
      exact .readsAgain
  | remove uri =>
    obtain ⟨_, _, hnone⟩ := map_eq_ok hstep
    cases hnone

theorem leaves_of_next (hnext : t.next? h w = some next) : t.Leaves h w next := by
  refine leaves_of_step ?_
  cases hdone : (t.step h w).2 with
  | error e =>
    rw [Task.next?, hdone] at hnext
    cases hnext
  | ok left? =>
    rw [Task.next?, hdone] at hnext
    exact congrArg Except.ok hnext

theorem Leaves.uri (hleaves : t.Leaves h w next) : next.uri h.cwd = t.uri h.cwd := by
  cases hleaves with
  | commits hread => exact (Workspace.uri_readFile hread).1
  | _ => rfl

/-- The open documents after a step. -/
def opened (h : Host) (o : OpenDocuments) : Task → OpenDocuments
  | edit uri text => o.insert uri (h.parse uri text h.now)
  | index d => if o.contains d.uri then o.insert d.uri d else o
  | forget uri => o.erase uri
  | _ => o

/-- What a step is to do to the store. -/
def operation? (h : Host) (w : Workspace) : Task → Option Operation
  | index d => if w.isOpen d.uri then none else some (.replace (d.version h.now))
  | commit again d =>
    if w.isPassed again d = .ok false then some (.replace (d.version h.now)) else none
  | remove uri => some (.remove uri)
  | _ => none

/-- When a step changes the store, and how. -/
inductive Operates (h : Host) (w : Workspace) : Task → Operation → Prop
  | indexes {d : Document} (hclosed : w.isOpen d.uri = false) :
      Operates h w (index d) (.replace (d.version h.now))
  | commits {again : Bool} {d : Document} (hpassed : w.isPassed again d = .ok false) :
      Operates h w (commit again d) (.replace (d.version h.now))
  | removes {uri : String} : Operates h w (remove uri) (.remove uri)

theorem operates_of_operation {op : Operation} (hop : t.operation? h w = some op) :
    t.Operates h w op := by
  cases t with
  | index d =>
    simp only [operation?] at hop
    split at hop
    · cases hop
    · next hclosed =>
      cases hop
      exact .indexes (Bool.eq_false_iff.2 hclosed)
  | commit again d =>
    simp only [operation?] at hop
    split at hop
    · next hpassed =>
      cases hop
      exact .commits hpassed
    · cases hop
  | remove uri =>
    cases hop
    exact .removes
  | _ => cases hop

namespace Operates
variable {op : Operation}

theorem step_eq (hoperates : t.Operates h w op) :
    t.step h w = (w.operate op).map id (·.map fun _ => none) := by
  cases hoperates with
  | indexes hclosed =>
    rw [step, Workspace.indexDocument, if_neg (Bool.eq_false_iff.1 hclosed),
      Workspace.storeDocument_eq]
  | commits hpassed =>
    rw [step, Workspace.commit_eq, hpassed]
    rcases w.operate_cases _ with ⟨_, _, hrun⟩ | ⟨_, _, hrun⟩ <;> rw [hrun] <;> rfl
  | removes =>
    rw [← Workspace.remove_eq, step]
    rcases w.remove _ with ⟨w', _ | existed⟩ <;> rfl

theorem opened_eq (hoperates : t.Operates h w op) : t.opened h w.opened = w.opened := by
  cases hoperates with
  | indexes hclosed => exact if_neg (Bool.eq_false_iff.1 hclosed)
  | _ => rfl

theorem uri_eq (hoperates : t.Operates h w op) : op.uri = t.uri h.cwd := by
  cases hoperates <;> rfl

/-- A document is stored by a task that has it, while it is not open. -/
theorem exists_of_replace {v : Version} (hoperates : t.Operates h w (.replace v)) :
    ∃ d, v = d.version h.now ∧ w.isOpen d.uri = false ∧
      (t = index d ∨ ∃ again, t = commit again d) := by
  cases hoperates with
  | indexes hclosed => exact ⟨_, rfl, hclosed, .inl rfl⟩
  | commits hpassed =>
    exact ⟨_, rfl, Workspace.not_isOpen_of_isPassed hpassed, .inr ⟨_, rfl⟩⟩

end Operates

theorem step_of_none (hop : t.operation? h w = none) :
    (t.step h w).1 = { w with opened := t.opened h w.opened } := by
  cases t with
  | index d =>
    simp only [operation?] at hop
    split at hop
    · next hopen =>
      have hcontains : w.opened.contains d.uri = true := hopen
      rw [step, Workspace.indexDocument, if_pos hopen, opened, if_pos hcontains]
      rfl
    · cases hop
  | commit again d =>
    simp only [operation?] at hop
    split at hop
    · cases hop
    · next hpassed =>
      rw [step, Workspace.commit_eq]
      cases hpass : w.isPassed again d with
      | error e => rfl
      | ok passed =>
        cases passed with
        | true => rfl
        | false => exact absurd hpass hpassed
  | remove uri => cases hop
  | _ => rfl

theorem opened_step (h : Host) (w : Workspace) (t : Task) :
    (t.step h w).1.opened = t.opened h w.opened := by
  cases hop : t.operation? h w with
  | none => rw [step_of_none hop]
  | some op =>
    have hoperates := operates_of_operation hop
    rw [hoperates.step_eq, hoperates.opened_eq]
    exact Workspace.opened_operate

/-! ### A call by itself -/

/-- How many steps there may be at most. -/
def left : Task → Nat
  | edit .. | index _ | commit .. | remove _ => 1
  | read .. => 2
  | check .. | locate _ => 3
  | stat _ | forget _ => 4

theorem Leaves.left_lt (hleaves : t.Leaves h w next) : next.left < t.left := by
  cases hleaves <;> simp [left]

/-- All steps one after the other. -/
def alone (h : Host) (w : Workspace) (t : Task) : Workspace × Except IndexError Unit :=
  match _hstep : t.step h w with
  | (w', .error e) => (w', .error e)
  | (w', .ok none) => (w', .ok ())
  | (w', .ok (some next)) => next.alone h w'
termination_by t.left
decreasing_by exact (leaves_of_step (congrArg Prod.snd _hstep)).left_lt

theorem alone_of_error {w' : Workspace} {e : IndexError} (hstep : t.step h w = (w', .error e)) :
    t.alone h w = (w', .error e) := by
  rw [alone]
  split <;> simp_all

theorem alone_of_none {w' : Workspace} (hstep : t.step h w = (w', .ok none)) :
    t.alone h w = (w', .ok ()) := by
  rw [alone]
  split <;> simp_all

theorem alone_of_some {w' : Workspace} (hstep : t.step h w = (w', .ok (some next))) :
    t.alone h w = next.alone h w' := by
  rw [alone]
  split <;> simp_all

theorem alone_commit (h : Host) (w : Workspace) (again : Bool) (d : Document) :
    (commit again d).alone h w = (w.commit h again d).map id (·.map fun _ => ()) := by
  cases hcommit : w.commit h again d with
  | mk w' done =>
    cases done with
    | error e => exact alone_of_error (by rw [step, hcommit]; rfl)
    | ok outcome => exact alone_of_none (by rw [step, hcommit]; rfl)

theorem alone_remove (h : Host) (w : Workspace) (uri : String) :
    (remove uri).alone h w = (w.remove uri).map id (·.map fun _ => ()) := by
  cases hremove : w.remove uri with
  | mk w' done =>
    cases done with
    | error e => exact alone_of_error (by rw [step, hremove]; rfl)
    | ok existed => exact alone_of_none (by rw [step, hremove]; rfl)

theorem alone_read (h : Host) (w : Workspace) (uri : String) (modified : Int64) (again : Bool) :
    (read uri modified again).alone h w =
      (w.indexFromDisk h uri modified again).map id (·.map fun _ => ()) := by
  unfold Workspace.indexFromDisk
  cases hread : Workspace.readFile h uri modified with
  | error e => exact alone_of_error (by rw [step, hread]; rfl)
  | ok d =>
    rw [alone_of_some (by rw [step, hread]; rfl), alone_commit]

theorem alone_check (h : Host) (w : Workspace) (uri : String) (modified : Int64) :
    (check uri modified).alone h w = (w.sync h uri modified).map id (·.map fun _ => ()) := by
  unfold Workspace.sync
  cases hsettled : w.isSettled uri modified with
  | error e => exact alone_of_error (by rw [step, hsettled]; rfl)
  | ok settled =>
    cases settled with
    | true => exact alone_of_none (by rw [step, hsettled]; rfl)
    | false => rw [alone_of_some (by rw [step, hsettled]; rfl), alone_read]

end Task

/-- A call whose steps follow each other does what it does alone. -/
theorem Call.alone_task (h : Host) (w : Workspace) (c : Call) : c.task.alone h w = c.run h w := by
  cases c with
  | edit uri text => exact Task.alone_of_none rfl
  | index d =>
    cases hindex : w.indexDocument h d with
    | mk w' done =>
      rw [run, hindex]
      cases done with
      | error e => exact Task.alone_of_error (by rw [task, Task.step, hindex]; rfl)
      | ok _ => exact Task.alone_of_none (by rw [task, Task.step, hindex]; rfl)
  | sync uri modified => exact Task.alone_check h w uri modified
  | indexPath path =>
    rw [run, Workspace.indexPath]
    cases hmodified : h.modified path with
    | error fault => exact Task.alone_of_error (by rw [task, Task.step, hmodified]; rfl)
    | ok modified =>
      rw [task, Task.alone_of_some (by rw [Task.step, hmodified]), Task.alone_check]
  | close uri =>
    rw [task, Task.alone_of_some rfl, Task.alone_of_some rfl, Task.afterClose, run,
      Workspace.close]
    cases hmodified : (Path.ofUri? uri).bind fun path => (h.modified path).toOption with
    | none =>
      rw [Task.alone_remove]
      rfl
    | some modified =>
      rw [Task.alone_read]
      rfl
  | remove uri => exact Task.alone_remove h w uri

end PhpIndex
