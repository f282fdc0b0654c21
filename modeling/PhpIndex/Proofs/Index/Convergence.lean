import PhpIndex.Proofs.Index.History

/-!
# Convergence

However a store came about, it holds what the last version of each document would write into an
empty store. Nothing of a replaced or removed version is left, doing an operation twice is doing
it once, and operations on different documents may be exchanged.
Main statement: `runAll_converges`.
-/
namespace PhpIndex

/-- What a version alone writes into an empty store. -/
def Version.Writes (v : Version) (key value : Bytes) : Prop :=
  ∃ fresh, (Operation.replace v).run .volatile = .ok fresh ∧ fresh.rows.get? key = some value

/-- What the store after a run has in common with every store of the same last versions. -/
structure Converges (ops : List Operation) (s : Store) : Prop where
  /-- The rows are the union of those of the last versions. -/
  rows : ∀ key value, s.rows.get? key = some value ↔
    ∃ uri v, lastVersion ops uri = some v ∧ v.Writes key value
  /-- The rows of a document are those of its last version, and none if it has no version. -/
  document : ∀ uri key value, NulFree uri → KeyOf uri key → (s.rows.get? key = some value ↔
    ∃ v, lastVersion ops uri = some v ∧ v.Writes key value)
  /-- A second time an operation changes nothing. -/
  idempotent : ∀ op : Operation, op.Valid → ∃ s₁ s₂, op.run s = .ok s₁ ∧ op.run s₁ = .ok s₂ ∧
    s₂.rows = s₁.rows
  /-- Operations on different documents commute. -/
  commute : ∀ a b : Operation, a.Valid → b.Valid → a.uri ≠ b.uri → ∃ sa sab sb sba,
    a.run s = .ok sa ∧ b.run sa = .ok sab ∧ b.run s = .ok sb ∧ a.run sb = .ok sba ∧
      sab.rows = sba.rows
  /-- An operation leaves the rows of all other documents as they are. -/
  others : ∀ op : Operation, op.Valid → ∃ s₁, op.run s = .ok s₁ ∧
    ∀ uri key, NulFree uri → uri ≠ op.uri → KeyOf uri key →
      s₁.rows.get? key = s.rows.get? key

theorem writes_iff {v : Version} (hv : NulFree v.uri) {key value : Bytes} :
    v.Writes key value ↔ v.rows.get? key = some value := by
  obtain ⟨fresh, hfresh, hrows⟩ := run_replace_volatile hv
  constructor
  · rintro ⟨other, hother, hvalue⟩
    rw [hfresh, Except.ok.injEq] at hother
    rwa [← hrows, hother]
  · exact fun hvalue => ⟨fresh, hfresh, hrows ▸ hvalue⟩

namespace Operation
variable (last : String → Option Version)

theorem lastAfter_twice (op : Operation) :
    op.lastAfter (op.lastAfter last) = op.lastAfter last := by
  funext uri
  cases op with
  | replace v =>
    simp only [lastAfter]
    split <;> rfl
  | remove removed =>
    simp only [lastAfter]
    split <;> rfl

theorem lastAfter_of_ne {op : Operation} {uri : String} (h : uri ≠ op.uri) :
    op.lastAfter last uri = last uri := by
  cases op with
  | replace v => exact if_neg h
  | remove removed => exact if_neg h

theorem lastAfter_uri (op : Operation) (last last' : String → Option Version) :
    op.lastAfter last op.uri = op.lastAfter last' op.uri := by
  cases op with
  | replace v => simp [lastAfter, uri]
  | remove removed => simp [lastAfter, uri]

theorem lastAfter_comm {a b : Operation} (h : a.uri ≠ b.uri) :
    b.lastAfter (a.lastAfter last) = a.lastAfter (b.lastAfter last) := by
  funext uri
  by_cases ha : uri = a.uri
  · subst ha
    rw [lastAfter_of_ne _ h]
    exact lastAfter_uri a _ _
  · rw [lastAfter_of_ne _ ha]
    by_cases hb : uri = b.uri
    · subst hb
      exact lastAfter_uri b _ _
    · rw [lastAfter_of_ne _ hb, lastAfter_of_ne _ hb, lastAfter_of_ne _ ha]

end Operation

namespace Holds
variable {s : Store} {last : String → Option Version}

theorem idempotent (h : Holds s.rows last) {op : Operation} (hop : op.Valid) :
    ∃ s₁ s₂, op.run s = .ok s₁ ∧ op.run s₁ = .ok s₂ ∧ s₂.rows = s₁.rows := by
  obtain ⟨s₁, hrun₁, h₁⟩ := h.run hop
  obtain ⟨s₂, hrun₂, h₂⟩ := h₁.run hop
  rw [Operation.lastAfter_twice] at h₂
  exact ⟨s₁, s₂, hrun₁, hrun₂, h₂.rows_eq h₁⟩

theorem commute (h : Holds s.rows last) {a b : Operation} (ha : a.Valid) (hb : b.Valid)
    (hne : a.uri ≠ b.uri) : ∃ sa sab sb sba, a.run s = .ok sa ∧ b.run sa = .ok sab ∧
      b.run s = .ok sb ∧ a.run sb = .ok sba ∧ sab.rows = sba.rows := by
  obtain ⟨sa, hsa, hholdsa⟩ := h.run ha
  obtain ⟨sab, hsab, hholdsab⟩ := hholdsa.run hb
  obtain ⟨sb, hsb, hholdsb⟩ := h.run hb
  obtain ⟨sba, hsba, hholdsba⟩ := hholdsb.run ha
  rw [Operation.lastAfter_comm last hne] at hholdsab
  exact ⟨sa, sab, sb, sba, hsa, hsab, hsb, hsba, hholdsab.rows_eq hholdsba⟩

theorem others (h : Holds s.rows last) {op : Operation} (hop : op.Valid) :
    ∃ s₁, op.run s = .ok s₁ ∧ ∀ uri key, NulFree uri → uri ≠ op.uri → KeyOf uri key →
      s₁.rows.get? key = s.rows.get? key := by
  obtain ⟨s₁, hrun, h₁⟩ := h.run hop
  refine ⟨s₁, hrun, fun uri key huri hne hkey => Option.ext fun value => ?_⟩
  rw [h₁.get?_of_keyOf huri hkey, h.get?_of_keyOf huri hkey, Operation.lastAfter_of_ne _ hne]

end Holds

/-- Every run succeeds, and what the store holds is told by the last versions alone. -/
theorem runAll_converges {ops : List Operation} (hops : ∀ op ∈ ops, op.Valid) :
    ∃ s, Store.volatile.runAll ops = .ok s ∧ Converges ops s := by
  obtain ⟨s, hrun, h⟩ := Holds.runAll (s := .volatile) Holds.empty hops
  have hwrites {uri : String} {v : Version} (hv : lastVersion ops uri = some v)
      {key value : Bytes} : v.Writes key value ↔ v.rows.get? key = some value :=
    writes_iff (h.valid uri v hv).uri
  refine ⟨s, hrun, ?_⟩
  constructor
  case rows =>
    intro key value
    rw [h.rows]
    exact exists_congr fun uri => exists_congr fun v => and_congr_right fun hv => (hwrites hv).symm
  case document =>
    intro uri key value huri hkey
    rw [h.get?_of_keyOf huri hkey]
    exact exists_congr fun v => and_congr_right fun hv => (hwrites hv).symm
  case idempotent => exact fun op hop => h.idempotent hop
  case commute => exact fun a b ha hb hne => h.commute ha hb hne
  case others => exact fun op hop => h.others hop

theorem runAll_reindexed :
    let get : Symbol := .method ⟨"get", "Box", .empty, {}, {}, .empty, none⟩
    let ops := [.replace (.ofSymbols "a.php" [get, get]), .replace (.ofSymbols "b.php" [get]),
      .replace (.ofSymbols "a.php" []), .remove "b.php"]
    (∀ op ∈ ops, op.Valid) ∧ ∃ s, Store.volatile.runAll ops = .ok s ∧ Converges ops s := by
  intro get ops
  have hops : ∀ op ∈ ops, op.Valid := by decide
  exact ⟨hops, runAll_converges hops⟩

end PhpIndex
