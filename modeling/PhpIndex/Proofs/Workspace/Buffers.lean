import PhpIndex.Proofs.Index.Ownership
import PhpIndex.Proofs.Workspace.Sessions
import Mathlib.Data.List.Infix

/-!
# Buffers and the store

What is edited stays out of the store, in whatever order the steps of several calls follow each
other: a document is stored only while it is not open, and what is read from the disk meanwhile is
dropped if the document was opened since. So the rows of an open document stay as they were when
it was opened until it is removed. Words are the exception if names have zero characters, for then
two documents may have a word under one key.
Main statements: `Session.get?_runAll_of_staysOpen`, `Session.get?_opened_runAll`,
`buffers_stay_out`, `buffers_let_in`.
-/
namespace PhpIndex

namespace Task

/-- The text that a step gives a document. -/
def buffer? (h : Host) (uri : String) : Task → Option Document
  | edit uri' text => if uri' = uri then some (h.parse uri text h.now) else none
  | index d => if d.uri = uri then some d else none
  | _ => none

/-- A document that is open after a step has the text that the step gives it, or the one it had. -/
theorem get?_opened {h : Host} {o : OpenDocuments} {t : Task} {uri : String} {d : Document}
    (hopen : (t.opened h o).get? uri = some d) : (t.buffer? h uri).or (o.get? uri) = some d := by
  cases t with
  | edit uri' text =>
    rw [opened, OrderedMap.get?_insert] at hopen
    by_cases heq : uri = uri'
    · rw [if_pos heq] at hopen
      rw [buffer?, if_pos heq.symm, heq, hopen]
      rfl
    · rw [if_neg heq] at hopen
      rw [buffer?, if_neg fun h => heq h.symm, hopen]
      rfl
  | index d' =>
    rw [opened] at hopen
    by_cases heq : uri = d'.uri
    · rw [buffer?, if_pos heq.symm]
      split at hopen
      · rwa [OrderedMap.get?_insert, if_pos heq] at hopen
      · next hclosed =>
        -- Nothing is opened by this step, so the document would have been open before.
        rw [OrderedMap.contains, ← heq, hopen] at hclosed
        exact absurd rfl hclosed
    · rw [buffer?, if_neg fun h => heq h.symm, Option.none_or]
      split at hopen
      · rwa [OrderedMap.get?_insert, if_neg heq] at hopen
      · exact hopen
  | forget uri' =>
    rw [opened, OrderedMap.get?_erase] at hopen
    split at hopen
    · cases hopen
    · exact hopen
  | _ => exact hopen

end Task

namespace Session

def rows (s : Session) : Rows := s.workspace.store.rows

/-- Whether the document is open before and after each of the actions. -/
def StaysOpen (s : Session) (uri : String) (actions : List Action) : Prop :=
  ∀ front, front <+: actions → (s.runAll front).workspace.isOpen uri = true

instance (s : Session) (uri : String) (actions : List Action) :
    Decidable (s.StaysOpen uri actions) :=
  decidable_of_iff (∀ front ∈ actions.inits, (s.runAll front).workspace.isOpen uri = true)
    (forall_congr' fun front => by rw [List.mem_inits])

variable {s : Session} {a : Action} {uri : String}

/-! ## One action -/

/-- A row after an action is one of a document that is stored while it is not open, or was there
before. -/
theorem entered_of_act {p : IndexPart} {k value : Bytes}
    (hrow : (s.act a).rows.get? (p.table.key k) = some value) :
    (∃ d, s.operation? a = some (.replace (d.version s.host.now)) ∧
      s.workspace.isOpen d.uri = false ∧ (d.version s.host.now).Enters p k value ∧
      (.index d ∈ s.tasks ∨ ∃ again, .commit again d ∈ s.tasks)) ∨
    s.rows.get? (p.table.key k) = some value := by
  unfold rows at hrow
  cases hop : s.operation? a with
  | none =>
    rw [store_act_of_none hop] at hrow
    exact .inr hrow
  | some op =>
    rcases workspace_act_of_operation hop with ⟨s', hrun, hworkspace⟩ | hworkspace
    · rw [hworkspace] at hrow
      rcases Store.entered_of_run hrun hrow with ⟨v, rfl, henters⟩ | hold
      · obtain ⟨t, ht, -, hoperates⟩ := exists_task_of_operation hop
        obtain ⟨d, rfl, hclosed, rfl | ⟨again, rfl⟩⟩ := hoperates.exists_of_replace
        · exact .inl ⟨d, rfl, hclosed, henters, .inl ht⟩
        · exact .inl ⟨d, rfl, hclosed, henters, .inr ⟨again, ht⟩⟩
      · exact .inr hold
    · rw [hworkspace] at hrow
      exact .inr hrow

/-- What was read of a document that is open now is dropped. -/
theorem workspace_act_of_commit {again : Bool} {d : Document}
    (htask : s.task? a = some (.commit again d)) (hopen : s.workspace.isOpen d.uri = true) :
    (s.act a).workspace = s.workspace := by
  have hop : (Task.commit again d).operation? s.host s.workspace = none := by
    refine if_neg fun hpassed => ?_
    rw [Workspace.not_isOpen_of_isPassed hpassed] at hopen
    cases hopen
  rw [workspace_act_of_task htask, Task.step_of_none hop]
  rfl

/-- An action leaves the rows of an open document that it does not remove. -/
theorem get?_act_of_isOpen (hopen : s.workspace.isOpen uri = true) (huri : NulFree uri)
    (hnul : ∀ op, s.operation? a = some op → NulFree op.uri)
    (hkept : s.operation? a ≠ some (.remove uri)) {p : IndexPart} {k : Bytes}
    (hk : p.Owns uri k)
    (hplain : p.IsWords → s.rows.Plain ∧ ∀ op, s.operation? a = some op → op.Plain) :
    (s.act a).rows.get? (p.table.key k) = s.rows.get? (p.table.key k) := by
  unfold rows
  cases hop : s.operation? a with
  | none => rw [store_act_of_none hop]
  | some op =>
    rcases workspace_act_of_operation hop with ⟨s', hrun, hworkspace⟩ | hworkspace
    · have hne : op.uri ≠ uri := by
        rintro rfl
        cases op with
        | remove removed => exact hkept hop
        | replace v =>
          obtain ⟨t, -, -, hoperates⟩ := exists_task_of_operation hop
          obtain ⟨d, rfl, hclosed, -⟩ := hoperates.exists_of_replace
          exact Bool.false_ne_true (hclosed.symm.trans hopen)
      rw [hworkspace]
      exact Store.get?_of_run hrun (fun hown => hne (hown.unique (hnul op hop) huri hk))
        fun hp => ⟨(hplain hp).1, (hplain hp).2 op hop⟩
    · rw [hworkspace]

theorem plain_act (hrows : s.rows.Plain) (hplain : ∀ op, s.operation? a = some op → op.Plain) :
    (s.act a).rows.Plain := by
  unfold rows at hrows ⊢
  cases hop : s.operation? a with
  | none => rwa [store_act_of_none hop]
  | some op =>
    rcases workspace_act_of_operation hop with ⟨s', hrun, hworkspace⟩ | hworkspace
    · rw [hworkspace]
      exact hrows.run (hplain op hop) hrun
    · rwa [hworkspace]

/-! ## Runs -/

variable {actions front back : List Action}

section
variable {op : Operation}

theorem mem_operations_left (hop : op ∈ s.trace operation? front) :
    op ∈ s.trace operation? (front ++ [a]) := by
  rw [trace_concat]
  exact List.mem_append_left _ hop

theorem mem_operations_last (hop : (s.runAll front).operation? a = some op) :
    op ∈ s.trace operation? (front ++ [a]) := by
  rw [trace_concat]
  exact List.mem_append_right _ (Option.mem_toList.2 hop)

end

theorem plain_runAll (hrows : s.rows.Plain) (hplain : ∀ op ∈ s.trace operation? actions, op.Plain) :
    (s.runAll actions).rows.Plain := by
  induction actions using List.reverseRecOn with
  | nil => exact hrows
  | append_singleton front a ih =>
    rw [runAll_concat]
    exact plain_act (ih fun op hop => hplain op (mem_operations_left hop))
      fun op hop => hplain op (mem_operations_last hop)

/-- The operations of a run are on the documents of its calls. -/
theorem nulFree_of_mem_operations (hidle : s.tasks = [])
    (hnul : ∀ c, .call c ∈ actions → NulFree (c.task.uri s.host.cwd)) {op : Operation}
    (hop : op ∈ s.trace operation? actions) : NulFree op.uri := by
  obtain ⟨front, a, back, rfl, hlast⟩ := exists_of_mem_trace hop
  obtain ⟨t, ht, -, hoperates⟩ := exists_task_of_operation hlast
  obtain ⟨c, hc, huri⟩ := exists_call_of_mem_tasks hidle ht
  rw [hoperates.uri_eq, (host_runAll s front).1, huri]
  exact hnul c (List.mem_append_left _ hc)

/-- The rows of a document that stays open and is not removed stay. -/
theorem get?_runAll_of_staysOpen (hopen : s.StaysOpen uri actions) (huri : NulFree uri)
    (hnul : ∀ op ∈ s.trace operation? actions, NulFree op.uri)
    (hkept : .remove uri ∉ s.trace operation? actions) {p : IndexPart} {k : Bytes}
    (hk : p.Owns uri k)
    (hplain : p.IsWords → s.rows.Plain ∧ ∀ op ∈ s.trace operation? actions, op.Plain) :
    (s.runAll actions).rows.get? (p.table.key k) = s.rows.get? (p.table.key k) := by
  induction actions using List.reverseRecOn with
  | nil => rfl
  | append_singleton front a ih =>
    have hfront : front <+: front ++ [a] := List.prefix_append ..
    rw [runAll_concat, get?_act_of_isOpen (hopen front hfront) huri
      (fun op hop => hnul op (mem_operations_last hop))
      (fun hop => hkept (mem_operations_last hop)) hk fun hp =>
        ⟨plain_runAll (hplain hp).1 fun op hop => (hplain hp).2 op (mem_operations_left hop),
          fun op hop => (hplain hp).2 op (mem_operations_last hop)⟩]
    exact ih (fun before hbefore => hopen before (hbefore.trans hfront))
      (fun op hop => hnul op (mem_operations_left hop))
      (fun hop => hkept (mem_operations_left hop))
      fun hp => ⟨(hplain hp).1, fun op hop => (hplain hp).2 op (mem_operations_left hop)⟩

/-! ## Buffers -/

/-- The text that an action gives a document. -/
def buffer? (uri : String) (s : Session) (a : Action) : Option Document :=
  (s.task? a).bind (Task.buffer? s.host uri)

/-- A document that is open after an action has the text that the action gives it, or the one it
had. -/
theorem get?_opened_act {d : Document} (hopen : (s.act a).workspace.opened.get? uri = some d) :
    (buffer? uri s a).or (s.workspace.opened.get? uri) = some d := by
  unfold buffer?
  cases htask : s.task? a with
  | none =>
    rw [workspace_act_of_none htask] at hopen
    exact hopen
  | some t =>
    rw [workspace_act_of_task htask, Task.opened_step] at hopen
    exact Task.get?_opened hopen

theorem get?_opened_runAll {d : Document}
    (hopen : (s.runAll actions).workspace.opened.get? uri = some d) :
    (s.trace (buffer? uri) actions).getLast?.or (s.workspace.opened.get? uri) = some d := by
  induction actions using List.reverseRecOn generalizing d with
  | nil => exact hopen
  | append_singleton front a ih =>
    rw [runAll_concat] at hopen
    rw [getLast?_trace_concat, Option.or_assoc]
    rcases Option.or_eq_some_iff.1 (get?_opened_act hopen) with hgiven | ⟨hnone, hkept⟩
    · rw [hgiven]
      rfl
    · rw [hnone, Option.none_or]
      exact ih hkept

end Session

/-- For any calls whose steps follow each other in any order: rows come only from documents that
are read from the disk or indexed, while they are not open; what was read of a document is dropped
if that is open by then; while it stays open its rows stay, and its buffer is the last text that
it was given. -/
theorem buffers_stay_out {s₀ : Session} (hidle : s₀.tasks = []) {actions : List Action}
    (hnul : ∀ c, .call c ∈ actions → NulFree (c.task.uri s₀.host.cwd)) :
    (∀ front a, front ++ [a] <+: actions → let s := s₀.runAll front
      (∀ (p : IndexPart) k value, (s.act a).rows.get? (p.table.key k) = some value →
        s.rows.get? (p.table.key k) = some value ∨
        ∃ d, s.operation? a = some (.replace (d.version s.host.now)) ∧
          s.workspace.isOpen d.uri = false ∧ (d.version s.host.now).Enters p k value ∧
          (.call (.index d) ∈ front ∨ ∃ earlier, earlier <+: front ∧
            Workspace.readFile (s₀.runAll earlier).host d.uri d.modified = .ok d)) ∧
      ∀ again d, s.task? a = some (.commit again d) → s.workspace.isOpen d.uri = true →
        (s.act a).workspace = s.workspace) ∧
    (∀ front later uri, front ++ later = actions → NulFree uri → let s := s₀.runAll front
      s.StaysOpen uri later → .remove uri ∉ s.trace Session.operation? later →
        ∀ (p : IndexPart) k, p.Owns uri k →
          (p.IsWords → s₀.rows.Plain ∧ ∀ op ∈ s₀.trace Session.operation? actions, op.Plain) →
            (s.runAll later).rows.get? (p.table.key k) = s.rows.get? (p.table.key k)) ∧
    ∀ uri, (s₀.runAll actions).workspace.isOpen uri = true →
      (s₀.runAll actions).workspace.opened.get? uri =
        (s₀.trace (Session.buffer? uri) actions).getLast?.or (s₀.workspace.opened.get? uri) := by
  refine ⟨fun front a hfront => ⟨fun p k value hrow => ?_, fun again d htask hopen => ?_⟩,
    fun front later uri hactions huri hopen hkept p k hk hplain => ?_, fun uri hopen => ?_⟩
  · rcases Session.entered_of_act hrow with ⟨d, hop, hclosed, henters, hfrom⟩ | hold
    · refine .inr ⟨d, hop, hclosed, henters, ?_⟩
      rcases hfrom with hindex | ⟨again, hcommit⟩
      · exact .inl (Session.call_of_index hidle hindex)
      · obtain ⟨earlier, back, rfl, hread⟩ := Session.exists_read_of_commit hidle hcommit
        exact .inr ⟨earlier, List.prefix_append .., hread⟩
    · exact .inl hold
  · exact Session.workspace_act_of_commit htask hopen
  · subst hactions
    have hoperations := Session.trace_append Session.operation? s₀ front later
    refine Session.get?_runAll_of_staysOpen hopen huri (fun op hop => ?_) hkept hk fun hp => ?_
    · exact Session.nulFree_of_mem_operations hidle hnul
        (hoperations ▸ List.mem_append_right _ hop)
    · obtain ⟨hrows, hops⟩ := hplain hp
      rw [hoperations] at hops
      exact ⟨Session.plain_runAll hrows fun op hop => hops op (List.mem_append_left _ hop),
        fun op hop => hops op (List.mem_append_right _ hop)⟩
  · obtain ⟨d, hd⟩ := Option.isSome_iff_exists.1 hopen
    rw [Session.get?_opened_runAll hd, hd]

/-- A document that declares a function. -/
def functionDocument (uri name : String) : Document :=
  .ofSymbols uri [.function ⟨name, .of uri ⟨0, 1⟩, ⟨[], .empty⟩, none⟩]

/-- A file is read, then opened, and indexed while it is open. -/
def openedMeanwhile : List Action :=
  [.call (.index (functionDocument "file:///a.php" "f")), .advance 0,
    .change ⟨.ofList [("/a.php", .file (Bytes.ofText "<?php") 5)]⟩ 9,
    .call (.sync "file:///a.php" 5), .advance 0, .advance 0,
    .call (.edit "file:///a.php" "<?php f();"), .advance 1]

/-- The file is to be stored, the document is indexed. -/
def indexedMeanwhile : List Action :=
  [.advance 0, .call (.index (functionDocument "file:///a.php" "g")), .advance 0]

theorem buffers_stay_out_opened :
    let s := Session.blank.runAll openedMeanwhile
    s.StaysOpen "file:///a.php" indexedMeanwhile ∧
    (s.task? (.advance 0)).map (Task.uri "/") = some "file:///a.php" ∧
    s.rows.get? (IndexPart.documents.table.key (Bytes.ofText "file:///a.php")) =
      some (toRecord ((functionDocument "file:///a.php" "f").record 0)) ∧
    (∀ (p : IndexPart) k, p.Owns "file:///a.php" k →
      (s.runAll indexedMeanwhile).rows.get? (p.table.key k) = s.rows.get? (p.table.key k)) ∧
    (s.runAll indexedMeanwhile).workspace.opened.get? "file:///a.php" =
      some (functionDocument "file:///a.php" "g") := by
  intro s
  have hidle : Session.blank.tasks = [] := rfl
  have hnul : ∀ c, .call c ∈ openedMeanwhile ++ indexedMeanwhile →
      NulFree (c.task.uri Session.blank.host.cwd) := by
    intro c hc
    simp only [openedMeanwhile, indexedMeanwhile, List.mem_append, List.mem_cons, Action.call.injEq,
      reduceCtorEq, List.not_mem_nil, or_false, false_or] at hc
    rcases hc with (rfl | rfl | rfl) | rfl <;> decide
  obtain ⟨-, hrows, hbuffer⟩ := buffers_stay_out hidle hnul
  have hrun := Session.runAll_append .blank openedMeanwhile indexedMeanwhile
  have hopen : s.StaysOpen "file:///a.php" indexedMeanwhile := by decide +kernel
  refine ⟨hopen, by decide +kernel, by decide +kernel, fun p k hk => ?_, ?_⟩
  · exact hrows _ _ "file:///a.php" rfl (by decide) hopen (by decide +kernel) p k hk
      fun _ => ⟨Rows.Plain.empty, by decide +kernel⟩
  · rw [← hrun, hbuffer _ (by decide +kernel)]
    decide +kernel

/-- Two names of which the one has a word in a document `u` under the key of a word that the other
one has in a document `v`. -/
def collidingNames : String × String := ("p_q\x00v\x00q\x00u\x00p_q", "q\x00u\x00p_q")

/-- While a document is open its rows change: a word comes to stand under the key of another one
where names have zero characters, and closing goes on to remove a document that was opened again
meanwhile. -/
theorem buffers_let_in :
    let (name, name') := collidingNames
    let word := IndexPart.words .functions |>.table.key (CompletionIndex.key "" "q" "u" name)
    let indexed := [.call (.index (functionDocument "u" name)), .advance 0,
      .call (.edit "u" ""), .advance 0]
    let others := [.call (.index (functionDocument "v" name')), .advance 0]
    let s := Session.blank.runAll indexed
    let row := IndexPart.documents.table.key (Bytes.ofText "file:///a.php")
    let closing := [.call (.index (functionDocument "file:///a.php" "f")), .advance 0,
      .call (.close "file:///a.php"), .advance 0, .advance 0,
      .call (.edit "file:///a.php" ""), .advance 1]
    let t := Session.blank.runAll closing
    (s.StaysOpen "u" others ∧ s.rows.get? word = some (toRecord (⟨"u", name⟩ : CompletionEntry)) ∧
      (s.runAll others).rows.get? word = some (toRecord (⟨"v", name'⟩ : CompletionEntry))) ∧
    t.StaysOpen "file:///a.php" [.advance 0] ∧ (t.rows.get? row).isSome ∧
      (t.runAll [.advance 0]).rows.get? row = none := by
  decide +kernel

end PhpIndex
