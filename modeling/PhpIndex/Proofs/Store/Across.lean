import PhpIndex.Proofs.Store.Queries

/-!
# Queries across a change

A query makes its reads one by one, so the rows may change between two of them. What it answers
then is told by the number of its reads that came before the change.
Main statements: `runAcross_bind_of_le`, `runAcross_forEach`.
-/
namespace PhpIndex.Query

/-- The answer of a query of which `n` reads see the rows before a change, and all others those
after it. -/
def runAcross (before after : Rows) : Nat → Query α → Except StoreError α
  | 0, q => q.run after
  | _ + 1, .done a => .ok a
  | _ + 1, .fail e => .error e
  | n + 1, .get key next => runAcross before after n (next (before.get? key))
  | n + 1, .scan start lead next => runAcross before after n (next (before.scanFrom start lead))

/-- How many reads the query makes. -/
def reads (rows : Rows) : Query α → Nat
  | .done _ => 0
  | .fail _ => 0
  | .get key next => reads rows (next (rows.get? key)) + 1
  | .scan start lead next => reads rows (next (rows.scanFrom start lead)) + 1

variable {before after : Rows}

@[simp] theorem runAcross_zero (q : Query α) : q.runAcross before after 0 = q.run after := by
  cases q <;> rfl

@[simp] theorem runAcross_done (n : Nat) (a : α) :
    (Query.done a).runAcross before after n = .ok a := by
  cases n <;> rfl

@[simp] theorem runAcross_fail (n : Nat) (e : StoreError) :
    (Query.fail e : Query α).runAcross before after n = .error e := by
  cases n <;> rfl

/-- A query that is done with its reads before the change goes on behind it. -/
theorem runAcross_bind_of_le {q : Query α} {n : Nat} (h : q.reads before ≤ n)
    (f : α → Query β) : (q >>= f).runAcross before after n =
      (q.run before).bind fun a => (f a).runAcross before after (n - q.reads before) := by
  change (q.bind f).runAcross before after n = _
  induction q generalizing n with
  | done a => rfl
  | fail e => exact runAcross_fail n e
  | get key next ih =>
    obtain ⟨m, rfl⟩ : ∃ m, n = m + 1 := ⟨n - 1, by rw [reads] at h; omega⟩
    have hnext := ih (before.get? key) (n := m) (by rw [reads] at h; omega)
    rw [reads, Nat.add_sub_add_right]
    exact hnext
  | scan start lead next ih =>
    obtain ⟨m, rfl⟩ : ∃ m, n = m + 1 := ⟨n - 1, by rw [reads] at h; omega⟩
    have hnext := ih (before.scanFrom start lead) (n := m) (by rw [reads] at h; omega)
    rw [reads, Nat.add_sub_add_right]
    exact hnext

/-- What follows without a further read does not see the change. -/
theorem runAcross_map (n : Nat) (q : Query α) (f : α → β) :
    (q >>= fun a => pure (f a)).runAcross before after n = (q.runAcross before after n).map f := by
  change (q.bind fun a => .done (f a)).runAcross before after n = _
  induction q generalizing n with
  | done a =>
    rw [runAcross_done]
    exact runAcross_done n (f a)
  | fail e =>
    rw [runAcross_fail]
    exact runAcross_fail n e
  | get key next ih =>
    cases n with
    | zero =>
      rw [runAcross_zero, runAcross_zero]
      exact (run_bind after (.get key next) fun a => .done (f a)).trans
        (by cases run after (.get key next) <;> rfl)
    | succ n => exact ih (before.get? key) n
  | scan start lead next ih =>
    cases n with
    | zero =>
      rw [runAcross_zero, runAcross_zero]
      exact (run_bind after (.scan start lead next) fun a => .done (f a)).trans
        (by cases run after (.scan start lead next) <;> rfl)
    | succ n => exact ih (before.scanFrom start lead) n

theorem bind_assoc (q : Query α) (f : α → Query β) (g : β → Query γ) :
    (q >>= f) >>= g = q >>= fun a => f a >>= g := by
  change (q.bind f).bind g = q.bind fun a => (f a).bind g
  induction q with
  | done a => rfl
  | fail e => rfl
  | get key next ih => exact congrArg (Query.get key) (funext ih)
  | scan start lead next ih => exact congrArg (Query.scan start lead) (funext ih)

/-- Of questions with one read each, the first `n` are answered before the change. -/
theorem runAcross_forEach {f : α → Query β} {g g' : α → β} {l : List α}
    (hreads : ∀ a ∈ l, (f a).reads before = 1) (h : ∀ a ∈ l, (f a).run before = .ok (g a))
    (h' : ∀ a ∈ l, (f a).run after = .ok (g' a)) (n : Nat) :
    (forEach f l).runAcross before after n = .ok ((l.take n).map g ++ (l.drop n).map g') := by
  induction l generalizing n with
  | nil => simp [forEach, pure]
  | cons a rest ih =>
    cases n with
    | zero =>
      rw [runAcross_zero, run_forEach_eq_map after h']
      rfl
    | succ n =>
      have hrest := ih (fun b hb => hreads b (List.mem_cons_of_mem a hb))
        (fun b hb => h b (List.mem_cons_of_mem a hb))
        (fun b hb => h' b (List.mem_cons_of_mem a hb)) n
      have hone := hreads a List.mem_cons_self
      rw [forEach, runAcross_bind_of_le (by omega), h a List.mem_cons_self, hone]
      simp only [Except.bind, Nat.add_sub_cancel]
      rw [runAcross_map, hrest]
      rfl

theorem reads_map (rows : Rows) (q : Query α) (f : α → β) :
    (q >>= fun a => pure (f a)).reads rows = q.reads rows := by
  change (q.bind fun a => .done (f a)).reads rows = _
  induction q with
  | done a => rfl
  | fail e => rfl
  | get key next ih => exact congrArg (· + 1) (ih _)
  | scan start lead next ih => exact congrArg (· + 1) (ih _)

theorem reads_ofFormat (rows : Rows) (r : Except FormatError α) : (ofFormat r).reads rows = 0 := by
  cases r <;> rfl

end PhpIndex.Query
