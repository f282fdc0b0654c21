import PhpIndex.Proofs.Index.Locality

/-!
# Writes that fail

Work on a store may fail on the way, and then what was changed before stays changed. Replacing and
removing a document make all their reads first and change the store in one step, which cannot fail:
after an error the store is what it was, whatever stood in it. After a success the rows that differ
are those of the document alone, also where its old declarations stand under names that are not
theirs.
Main statement: `writes_atomic`.
-/
namespace PhpIndex

/-- Work on a store, step by step. What was done before a failure is not undone. -/
abbrev Work := ExceptT StoreError (StateM Store)

namespace Work

/-- What the work answers, and the store that it leaves. -/
def run (w : Work α) (s : Store) : Except StoreError α × Store := StateT.run (ExceptT.run w) s

/-- The reads of a query, each of the store as it is by then. -/
def ofQuery : Query α → Work α
  | .done a => pure a
  | .fail e => throw e
  | .get key next => do
    let s ← MonadState.get
    ofQuery (next (s.rows.get? key))
  | .scan start lead next => do
    let s ← MonadState.get
    ofQuery (next (s.rows.scanFrom start lead))

/-- Makes all changes of a batch. -/
def apply (batch : Batch) : Work Unit := modify (·.apply batch)

/-- Reading leaves the store as it is. -/
theorem run_ofQuery (q : Query α) (s : Store) : (ofQuery q).run s = (q.run s.rows, s) := by
  induction q with
  | done a => rfl
  | fail e => rfl
  | get key next ih => exact ih _
  | scan start lead next ih => exact ih _

theorem run_bind (w : Work α) (f : α → Work β) (s : Store) :
    (w >>= f).run s = match w.run s with
      | (.ok a, s') => (f a).run s'
      | (.error e, s') => (.error e, s') := by
  simp only [run, ExceptT.run_bind, StateT.run_bind]
  rcases StateT.run (ExceptT.run w) s with ⟨_ | _, _⟩ <;> rfl

end Work

/-- The operation as work on a store. -/
def Operation.work : Operation → Work Unit
  | .replace v => do
    let batch ← .ofQuery (Index.replacement v.record v.symbols v.references v.scopes)
    .apply batch
  | .remove uri => do
    let _ ← Work.ofQuery (Index.document uri)
    let batch ← .ofQuery (Index.removal uri)
    .apply batch

/-- The store that an operation gives is the one that its work leaves, and its work leaves the
store as it was where the operation fails. -/
theorem Operation.run_work (op : Operation) (s : Store) :
    op.work.run s = match op.run s with
      | .ok t => (.ok (), t)
      | .error e => (.error e, s) := by
  cases op with
  | replace v =>
    rw [work, Work.run_bind, Work.run_ofQuery, Operation.run, Store.replaceDocument]
    cases (Index.replacement v.record v.symbols v.references v.scopes).run s.rows with
    | error e => rfl
    | ok batch => rfl
  | remove uri =>
    rw [work, Work.run_bind, Work.run_ofQuery, Operation.run, Store.removeDocument]
    cases (Index.document uri).run s.rows with
    | error e => rfl
    | ok record? =>
      simp only
      rw [Work.run_bind, Work.run_ofQuery]
      cases (Index.removal uri).run s.rows with
      | error e => rfl
      | ok batch => rfl

/-- An operation that fails leaves the store as it was. One that succeeds changes only rows of its
document, if there are no zero characters in the names of the symbols that it enters and of those
that it reads, and such a row is of no other document. -/
theorem writes_atomic (op : Operation) (s t : Store) :
    (∀ e, op.work.run s = (.error e, t) → op.run s = .error e ∧ t = s) ∧
    (op.work.run s = (.ok (), t) → op.run s = .ok t ∧
      ((∀ x ∈ op.symbols, x.Plain) → s.rows.PlainOf op.uri →
        ∀ key, t.rows.get? key ≠ s.rows.get? key → Owned op.uri key ∧
          (NulFree op.uri → ∀ uri, NulFree uri → Owned uri key → uri = op.uri))) := by
  rw [op.run_work s]
  cases hrun : op.run s with
  | error e =>
    refine ⟨fun e' h => ?_, nofun⟩
    obtain ⟨he, rfl⟩ := Prod.mk.inj h
    exact ⟨congrArg _ (Except.error.inj he), rfl⟩
  | ok t' =>
    refine ⟨nofun, fun h => ?_⟩
    obtain ⟨-, rfl⟩ := Prod.mk.inj h
    refine ⟨rfl, fun hnew hold key hkey => ?_⟩
    have howned : Owned op.uri key :=
      not_imp_comm.1 (Store.get?_run_of_not_owned hrun hold hnew) hkey
    exact ⟨howned, fun hop uri huri hother => hother.unique huri hop howned⟩

/-- One document has a declaration that is no record, another one a declaration under a name that
is not its own. -/
def brokenRows : Rows := .ofList
  [((IndexPart.declarations .classes).table.key (joinKey ["a.php", "A"]), [255]),
    ((IndexPart.declarations .methods).table.key (joinKey ["b.php", "Box@get"]),
      toRecord (.method ⟨"put", "Box", .empty, {}, {}, .empty, none⟩ : Symbol)),
    ((IndexPart.names .methods).table.key (joinKey ["Box@put", "b.php"]), [255]),
    ((IndexPart.names .methods).table.key (joinKey ["Box@put", "a.php"]), [255])]

theorem writes_atomic_broken :
    let s : Store := ⟨brokenRows, true, false⟩
    let get : Symbol := .method ⟨"get", "Box", .empty, {}, {}, .empty, none⟩
    let op : Operation := .replace (.ofSymbols "b.php" [get])
    let failed := (Operation.remove "a.php").work.run s
    let done := op.work.run s
    (∃ e, failed.1 = .error e) ∧ failed.2 = s ∧
    (∀ x ∈ op.symbols, x.Plain) ∧ s.rows.PlainOf op.uri ∧ NulFree op.uri ∧ done.1 = .ok () ∧
      done.2 ≠ s ∧ ∀ key, done.2.rows.get? key ≠ s.rows.get? key → Owned op.uri key := by
  intro s get op failed done
  have hfailed : failed = (.error (.format (.unexpectedEnd 4 1)), failed.2) := by decide +kernel
  have hdone : done = (.ok (), done.2) := by decide +kernel
  have hnew : ∀ x ∈ op.symbols, x.Plain := by decide
  have hold : s.rows.PlainOf op.uri := by decide +kernel
  have hrows := ((writes_atomic op s done.2).2 hdone).2 hnew hold
  exact ⟨⟨_, congrArg Prod.fst hfailed⟩, ((writes_atomic _ s failed.2).1 _ hfailed).2, hnew, hold,
    by decide, congrArg Prod.fst hdone, by decide +kernel, fun key hkey => (hrows key hkey).1⟩

end PhpIndex
