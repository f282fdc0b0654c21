import PhpIndex.Proofs.Workspace.Tasks
import Mathlib.Data.List.Induction
import Mathlib.Data.List.Perm.Basic

/-!
# Sessions

Several calls on one workspace at a time. Between two steps of one call there may be any steps of
others, and the disk and the clock may change.
Main statements: `Session.perm_tasks_act`, `Session.workspace_act_of_operation`,
`Session.exists_origin`.
-/
namespace PhpIndex

/-- The calls under way, each by what is left to do of it, and what has failed. -/
structure Session where
  host : Host
  workspace : Workspace
  tasks : List Task
  failed : List IndexError

/-- A call is made, a call takes a step, or the disk and the clock change. -/
inductive Action where
  | call (c : Call)
  | advance (i : Nat)
  | change (disk : Disk) (now : Int64)

namespace Session

/-- The session after a step of the task at a place. -/
def step (s : Session) (i : Nat) (t : Task) : Session :=
  { s with
    workspace := (t.step s.host s.workspace).1
    tasks :=
      match t.next? s.host s.workspace with
      | some next => s.tasks.set i next
      | none => s.tasks.eraseIdx i
    failed := s.failed ++ (t.fault? s.host s.workspace).toList }

def act (s : Session) : Action → Session
  | .call c => { s with tasks := s.tasks ++ [c.task] }
  | .change disk now => { s with host := { s.host with disk, now } }
  | .advance i =>
    match s.tasks[i]? with
    | none => s
    | some t => s.step i t

def runAll (s : Session) (actions : List Action) : Session := actions.foldl act s

/-- The task that takes a step. -/
def task? (s : Session) : Action → Option Task
  | .advance i => s.tasks[i]?
  | _ => none

/-- What an action is to do to the store. -/
def operation? (s : Session) (a : Action) : Option Operation :=
  (s.task? a).bind (Task.operation? s.host s.workspace)

/-- What is seen of the actions of a run, one after the other. -/
def trace (f : Session → Action → Option α) : Session → List Action → List α
  | _, [] => []
  | s, a :: rest => (f s a).toList ++ trace f (s.act a) rest

variable {s : Session} {a : Action} {t : Task}

@[simp] theorem runAll_nil (s : Session) : s.runAll [] = s := rfl

theorem runAll_append (s : Session) (front back : List Action) :
    s.runAll (front ++ back) = (s.runAll front).runAll back := List.foldl_append

theorem runAll_concat (s : Session) (front : List Action) (a : Action) :
    s.runAll (front ++ [a]) = (s.runAll front).act a := runAll_append s front [a]

theorem trace_append (f : Session → Action → Option α) (s : Session) (front back : List Action) :
    s.trace f (front ++ back) = s.trace f front ++ (s.runAll front).trace f back := by
  induction front generalizing s with
  | nil => rfl
  | cons a rest ih =>
    rw [List.cons_append, trace, ih, trace, List.append_assoc]
    rfl

theorem trace_concat (f : Session → Action → Option α) (s : Session) (front : List Action)
    (a : Action) : s.trace f (front ++ [a]) = s.trace f front ++ (f (s.runAll front) a).toList := by
  rw [trace_append, trace, trace, List.append_nil]

theorem getLast?_trace_concat (f : Session → Action → Option α) (s : Session)
    (front : List Action) (a : Action) :
    (s.trace f (front ++ [a])).getLast? = (f (s.runAll front) a).or (s.trace f front).getLast? := by
  rw [trace_concat, List.getLast?_append]
  cases f (s.runAll front) a <;> rfl

/-- The actions before one of which something is seen. -/
theorem exists_of_mem_trace {f : Session → Action → Option α} {actions : List Action} {x : α}
    (hx : x ∈ s.trace f actions) :
    ∃ front a back, actions = front ++ a :: back ∧ f (s.runAll front) a = some x := by
  induction actions generalizing s with
  | nil => cases hx
  | cons a rest ih =>
    rcases List.mem_append.1 hx with hx | hx
    · exact ⟨[], a, rest, rfl, Option.mem_toList.1 hx⟩
    · obtain ⟨front, b, back, rfl, hlast⟩ := ih hx
      exact ⟨a :: front, b, back, rfl, hlast⟩

theorem act_of_task (htask : s.task? a = some t) :
    ∃ i, s.tasks[i]? = some t ∧ s.act a = s.step i t := by
  cases a with
  | advance i =>
    refine ⟨i, htask, ?_⟩
    simp only [act, show s.tasks[i]? = some t from htask]
  | _ => cases htask

theorem mem_tasks_of_task (htask : s.task? a = some t) : t ∈ s.tasks := by
  obtain ⟨i, hi, -⟩ := act_of_task htask
  exact List.mem_of_getElem? hi

@[simp] theorem host_step (s : Session) (i : Nat) (t : Task) : (s.step i t).host = s.host := rfl

@[simp] theorem workspace_step (s : Session) (i : Nat) (t : Task) :
    (s.step i t).workspace = (t.step s.host s.workspace).1 := rfl

theorem workspace_act_of_task (htask : s.task? a = some t) :
    (s.act a).workspace = (t.step s.host s.workspace).1 := by
  obtain ⟨i, -, hact⟩ := act_of_task htask
  rw [hact, workspace_step]

theorem workspace_act_of_none (htask : s.task? a = none) : (s.act a).workspace = s.workspace := by
  cases a with
  | advance i => simp only [act, show s.tasks[i]? = none from htask]
  | _ => rfl

/-- The directory of relative paths and the grammar stay. -/
theorem host_act (s : Session) (a : Action) :
    (s.act a).host.cwd = s.host.cwd ∧ (s.act a).host.grammar = s.host.grammar := by
  cases a with
  | advance i =>
    simp only [act]
    split
    · exact ⟨rfl, rfl⟩
    · rw [host_step]
      exact ⟨rfl, rfl⟩
  | _ => exact ⟨rfl, rfl⟩

theorem host_runAll (s : Session) (actions : List Action) :
    (s.runAll actions).host.cwd = s.host.cwd ∧
      (s.runAll actions).host.grammar = s.host.grammar := by
  induction actions using List.reverseRecOn with
  | nil => exact ⟨rfl, rfl⟩
  | append_singleton front a ih =>
    rw [runAll_concat]
    exact ⟨(host_act _ a).1.trans ih.1, (host_act _ a).2.trans ih.2⟩

/-- The task that takes a step is replaced by what is left of it. -/
theorem perm_tasks_act (htask : s.task? a = some t) :
    ∃ rest, s.tasks.Perm (t :: rest) ∧
      (s.act a).tasks.Perm ((t.next? s.host s.workspace).toList ++ rest) := by
  obtain ⟨i, hi, hact⟩ := act_of_task htask
  obtain ⟨hlt, hget⟩ := List.getElem?_eq_some_iff.1 hi
  refine ⟨s.tasks.eraseIdx i, ?_, ?_⟩
  · rw [← hget]
    exact (List.getElem_cons_eraseIdx_perm hlt).symm
  · rw [hact, step]
    cases t.next? s.host s.workspace with
    | none => exact .refl _
    | some next => exact List.set_perm_cons_eraseIdx hlt next

/-- A task that is there after an action was there before, is that of a call that is made, or is
left by a step. -/
theorem mem_tasks_act (ht : t ∈ (s.act a).tasks) :
    t ∈ s.tasks ∨ (∃ c, a = .call c ∧ t = c.task) ∨
      ∃ before ∈ s.tasks, s.task? a = some before ∧ before.Leaves s.host s.workspace t := by
  cases htask : s.task? a with
  | none =>
    cases a with
    | call c =>
      rcases List.mem_append.1 ht with ht | ht
      · exact .inl ht
      · exact .inr (.inl ⟨c, rfl, List.mem_singleton.1 ht⟩)
    | change disk now => exact .inl ht
    | advance i =>
      simp only [act, show s.tasks[i]? = none from htask] at ht
      exact .inl ht
  | some before =>
    obtain ⟨rest, hbefore, hafter⟩ := perm_tasks_act htask
    rcases List.mem_append.1 (hafter.mem_iff.1 ht) with hnext | ht
    · refine .inr (.inr ⟨before, hbefore.mem_iff.2 List.mem_cons_self, rfl, ?_⟩)
      exact Task.leaves_of_next (Option.mem_toList.1 hnext)
    · exact .inl (hbefore.mem_iff.2 (List.mem_cons_of_mem _ ht))

/-! ### What an action does to the workspace -/

theorem store_act_of_none (hop : s.operation? a = none) :
    (s.act a).workspace.store = s.workspace.store := by
  cases htask : s.task? a with
  | none => rw [workspace_act_of_none htask]
  | some t =>
    rw [operation?, htask] at hop
    rw [workspace_act_of_task htask, Task.step_of_none hop]

theorem exists_task_of_operation {op : Operation} (hop : s.operation? a = some op) :
    ∃ t ∈ s.tasks, s.task? a = some t ∧ t.Operates s.host s.workspace op := by
  obtain ⟨t, htask, hop⟩ := Option.bind_eq_some_iff.1 hop
  exact ⟨t, mem_tasks_of_task htask, htask, Task.operates_of_operation hop⟩

/-- An operation succeeds or leaves the workspace. -/
theorem workspace_act_of_operation {op : Operation} (hop : s.operation? a = some op) :
    (∃ s', op.run s.workspace.store = .ok s' ∧
      (s.act a).workspace = { s.workspace with store := s' }) ∨
    (s.act a).workspace = s.workspace := by
  obtain ⟨t, -, htask, hoperates⟩ := exists_task_of_operation hop
  rw [workspace_act_of_task htask, hoperates.step_eq]
  rcases s.workspace.operate_cases op with ⟨s', hrun, heq⟩ | ⟨e, -, heq⟩
  · exact .inl ⟨s', hrun, congrArg Prod.fst (congrArg _ heq)⟩
  · exact .inr (congrArg Prod.fst (congrArg _ heq))

/-! ### Where tasks come from -/

section Origins
variable {s₀ : Session} (hidle : s₀.tasks = []) {actions : List Action}
include hidle

/-- A task of a run is that of a call, or was left by a step. -/
theorem exists_origin (ht : t ∈ (s₀.runAll actions).tasks) :
    (∃ c, .call c ∈ actions ∧ t = c.task) ∨
      ∃ front back before, actions = front ++ back ∧ before ∈ (s₀.runAll front).tasks ∧
        before.Leaves (s₀.runAll front).host (s₀.runAll front).workspace t := by
  induction actions using List.reverseRecOn with
  | nil =>
    rw [runAll_nil, hidle] at ht
    cases ht
  | append_singleton front a ih =>
    rw [runAll_concat] at ht
    rcases mem_tasks_act ht with ht | ⟨c, rfl, rfl⟩ | ⟨before, hbefore, -, hleaves⟩
    · rcases ih ht with ⟨c, hc, htask⟩ | ⟨front', back, before, rfl, hbefore, hleaves⟩
      · exact .inl ⟨c, List.mem_append_left _ hc, htask⟩
      · exact .inr ⟨front', back ++ [a], before, List.append_assoc .., hbefore, hleaves⟩
    · exact .inl ⟨c, List.mem_append_right _ List.mem_cons_self, rfl⟩
    · exact .inr ⟨front, [a], before, rfl, hbefore, hleaves⟩

theorem call_of_index {d : Document} (ht : .index d ∈ (s₀.runAll actions).tasks) :
    .call (.index d) ∈ actions := by
  rcases exists_origin hidle ht with ⟨c, hc, htask⟩ | ⟨_, _, _, _, _, hleaves⟩
  · cases c with
    | index d' =>
      cases htask
      exact hc
    | _ => cases htask
  · cases hleaves

/-- What is to be stored after a look at the disk was read there. -/
theorem exists_read_of_commit {again : Bool} {d : Document}
    (ht : .commit again d ∈ (s₀.runAll actions).tasks) :
    ∃ front back, actions = front ++ back ∧
      Workspace.readFile (s₀.runAll front).host d.uri d.modified = .ok d := by
  rcases exists_origin hidle ht with ⟨c, -, htask⟩ | ⟨front, back, _, hactions, -, hleaves⟩
  · cases c <;> cases htask
  · cases hleaves with
    | commits hread =>
      obtain ⟨rfl, rfl⟩ := Workspace.uri_readFile hread
      exact ⟨front, back, hactions, hread⟩

/-- A task is about the document of its call. -/
theorem exists_call_of_mem_tasks (ht : t ∈ (s₀.runAll actions).tasks) :
    ∃ c, .call c ∈ actions ∧ t.uri s₀.host.cwd = c.task.uri s₀.host.cwd := by
  induction actions using List.reverseRecOn generalizing t with
  | nil =>
    rw [runAll_nil, hidle] at ht
    cases ht
  | append_singleton front a ih =>
    have hin {c : Call} (hc : .call c ∈ front) : .call c ∈ front ++ [a] :=
      List.mem_append_left _ hc
    rw [runAll_concat] at ht
    rcases mem_tasks_act ht with ht | ⟨c, rfl, rfl⟩ | ⟨before, hbefore, -, hleaves⟩
    · obtain ⟨c, hc, huri⟩ := ih ht
      exact ⟨c, hin hc, huri⟩
    · exact ⟨c, List.mem_append_right _ List.mem_cons_self, rfl⟩
    · obtain ⟨c, hc, huri⟩ := ih hbefore
      have hleft := hleaves.uri
      rw [(host_runAll s₀ front).1] at hleft
      exact ⟨c, hin hc, hleft.trans huri⟩

end Origins

end Session

/-- A host with nothing on its disk, for whose grammar every text is empty. -/
def Host.blank : Host := ⟨fun _ => .node "program" none ⟨0, 0⟩ [], .empty, "/", 0⟩

/-- A session in which nothing has happened. -/
def Session.blank : Session := ⟨.blank, ⟨.standard 1, .volatile, .empty⟩, [], []⟩

/-- A workspace with nothing in it, which looks at every file of the wanted extensions. -/
def Workspace.blank : Workspace :=
  let settings := Settings.standard 1
  ⟨{ settings with indexing := { settings.indexing with ignorePatterns := [] } }, .volatile, .empty⟩

/-- A host with one file, which was changed at a time. -/
def Host.withFile (path text : String) (modified : Int64) : Host :=
  { Host.blank with disk := ⟨.ofList [(path, .file (Bytes.ofText text) modified)]⟩, now := 9 }

end PhpIndex
