import PhpIndex.Lookup.Definition
import Mathlib.Logic.Relation

/-!
# Ancestry without a bound

The walk up from a class counts the names with supertypes that it meets against a bound. Each of
them is counted once, so a bound that is no less than their number is never reached, and then the
ancestry depends on the supertypes alone.
Main statements: `SymbolSource.walkUp_outcome`, `SymbolSource.ancestry_climbs`.
-/
namespace PhpIndex

/-- The walk through a queue with no bound: the names visited before, latest first, the queue, and
what is visited in the end. -/
inductive Climbs (up : String → List String) : List String → List String → List String → Prop
  | done {visited : List String} : Climbs up visited [] visited.reverse
  | seen {visited queue result : List String} {name : String} (h : name ∈ visited)
    (rest : Climbs up visited queue result) : Climbs up visited (name :: queue) result
  | new {visited queue result : List String} {name : String} (h : name ∉ visited)
    (rest : Climbs up (name :: visited) (queue ++ up name) result) :
    Climbs up visited (name :: queue) result

namespace Climbs
variable {up : String → List String} {visited queue : List String}

theorem unique {result result' : List String} (h : Climbs up visited queue result)
    (h' : Climbs up visited queue result') : result = result' := by
  induction h with
  | done =>
    cases h'
    rfl
  | seen hseen _ ih =>
    cases h' with
    | seen _ rest => exact ih rest
    | new hnew _ => exact absurd hseen hnew
  | new hnew _ ih =>
    cases h' with
    | seen hseen _ => exact absurd hseen hnew
    | new _ rest => exact ih rest

/-- What holds of the names at the beginning and with a name of its supertypes holds of every name
met. -/
theorem forall_mem {P : String → Prop} (hup : ∀ name, P name → ∀ n ∈ up name, P n)
    {result : List String} (h : Climbs up visited queue result) (hvisited : ∀ n ∈ visited, P n)
    (hqueue : ∀ n ∈ queue, P n) : ∀ n ∈ result, P n := by
  induction h with
  | done => exact fun n hn => hvisited n (List.mem_reverse.1 hn)
  | seen _ _ ih => exact ih hvisited fun n hn => hqueue n (List.mem_cons_of_mem _ hn)
  | new _ _ ih =>
    refine ih (List.forall_mem_cons.2 ⟨hqueue _ List.mem_cons_self, hvisited⟩) ?_
    exact List.forall_mem_append.2
      ⟨fun n hn => hqueue n (List.mem_cons_of_mem _ hn), hup _ (hqueue _ List.mem_cons_self)⟩

end Climbs

namespace SymbolSource
variable {source : SymbolSource} {up : String → List String} {names : List String}

/-- The names that are still to be counted. -/
def uncounted (names visited : List String) : Nat :=
  (names.filter fun n => n ∉ visited).length

theorem uncounted_cons_le (names visited : List String) (name : String) :
    uncounted names (name :: visited) ≤ uncounted names visited := by
  rw [uncounted, uncounted, ← List.countP_eq_length_filter, ← List.countP_eq_length_filter]
  refine List.countP_mono_left fun n _ hn => ?_
  simp only [List.mem_cons, not_or, decide_eq_true_eq] at hn ⊢
  exact hn.2

theorem uncounted_cons_lt {visited : List String} {name : String} (hname : name ∈ names)
    (hnew : name ∉ visited) : uncounted names (name :: visited) < uncounted names visited := by
  have hfilter : names.filter (fun n => n ∉ name :: visited) =
      (names.filter fun n => n ∉ visited).filter fun n => n ≠ name := by
    rw [List.filter_filter]
    refine List.filter_congr fun n _ => ?_
    simp only [List.mem_cons, not_or, Bool.decide_and, ne_eq]
  rw [uncounted, uncounted, hfilter]
  refine List.length_filter_lt_length_iff_exists.2 ⟨name, ?_, by simp⟩
  exact List.mem_filter.2 ⟨hname, by simpa using hnew⟩

/-- As long as the bound covers the names that are still to be counted, it is not reached, and only
a name that is met and cannot be read keeps the walk from its end. -/
theorem walkUp_outcome (hup : ∀ name parents, source.supertypes name = .ok parents →
      up name = parents)
    (hnames : ∀ name, up name ≠ [] → name ∈ names) (budget : Nat) (visited queue : List String)
    (hbudget : uncounted names visited ≤ budget) :
    (∃ result, source.walkUp budget visited queue = .ok result ∧
      Climbs up visited queue result) ∨
    ∃ name e, source.walkUp budget visited queue = .error e ∧ source.supertypes name = .error e ∧
      ∃ start ∈ queue, Relation.ReflTransGen (fun a b => b ∈ up a) start name := by
  induction budget, visited, queue using walkUp.induct source with
  | case1 budget visited => exact .inl ⟨_, by rw [walkUp], .done⟩
  | case2 budget visited name queue hseen ih =>
    have hrun : source.walkUp budget visited (name :: queue) =
        source.walkUp budget visited queue := by
      rw [walkUp, if_pos hseen]
    rw [hrun]
    rcases ih hbudget with ⟨result, hresult, hclimbs⟩ | ⟨n, e, he, hn, start, hstart, hmet⟩
    · exact .inl ⟨result, hresult, .seen hseen hclimbs⟩
    · exact .inr ⟨n, e, he, hn, start, List.mem_cons_of_mem name hstart, hmet⟩
  | case3 budget visited name queue hnew e he =>
    refine .inr ⟨name, e, ?_, he, name, List.mem_cons_self, .refl⟩
    rw [walkUp, if_neg hnew, he]
  | case4 budget visited name queue hnew hnil ih =>
    have hup_nil := hup name [] hnil
    have hrun : source.walkUp budget visited (name :: queue) =
        source.walkUp budget (name :: visited) queue := by
      rw [walkUp, if_neg hnew, hnil]
    rw [hrun]
    rcases ih (Nat.le_trans (uncounted_cons_le names visited name) hbudget) with
      ⟨result, hresult, hclimbs⟩ | ⟨n, e, he, hn, start, hstart, hmet⟩
    · exact .inl ⟨result, hresult, .new hnew (by rwa [hup_nil, List.append_nil])⟩
    · exact .inr ⟨n, e, he, hn, start, List.mem_cons_of_mem name hstart, hmet⟩
  | case5 visited name queue hnew first more hcons =>
    have hup_cons := hup name _ hcons
    have hlt := uncounted_cons_lt (hnames name (by rw [hup_cons]; exact List.cons_ne_nil _ _)) hnew
    omega
  | case6 visited name queue hnew first more hcons budget ih =>
    have hup_cons := hup name _ hcons
    have hlt := uncounted_cons_lt (hnames name (by rw [hup_cons]; exact List.cons_ne_nil _ _)) hnew
    have hrun : source.walkUp (budget + 1) visited (name :: queue) =
        source.walkUp budget (name :: visited) (queue ++ first :: more) := by
      rw [walkUp, if_neg hnew, hcons]
    rw [hrun]
    rcases ih (by omega) with ⟨result, hresult, hclimbs⟩ | ⟨n, e, he, hn, start, hstart, hmet⟩
    · exact .inl ⟨result, hresult, .new hnew (by rwa [hup_cons])⟩
    · refine .inr ⟨n, e, he, hn, ?_⟩
      rcases List.mem_append.1 hstart with hstart | hstart
      · exact ⟨start, List.mem_cons_of_mem name hstart, hmet⟩
      · exact ⟨name, List.mem_cons_self, .head (hup_cons ▸ hstart) hmet⟩

/-- A source whose bound covers the names with supertypes finds the ancestry by these alone. -/
theorem ancestry_climbs (hup : ∀ name, source.supertypes name = .ok (up name))
    (hnames : ∀ name, up name ≠ [] → name ∈ names) (hbound : names.length ≤ source.classBound)
    (name : String) :
    ∃ result, source.ancestry name = .ok result ∧ Climbs up [] [name] result := by
  have hread (n : String) (parents : List String) (hn : source.supertypes n = .ok parents) :
      up n = parents := Except.ok.inj ((hup n).symm.trans hn)
  rcases walkUp_outcome hread hnames source.classBound [] [name]
    (Nat.le_trans (List.length_filter_le _ _) hbound) with hresult | ⟨n, e, -, hn, -⟩
  · exact hresult
  · rw [hup] at hn
    cases hn

/-- A class without supertypes is its own ancestry. -/
theorem ancestry_of_supertypes_eq_nil {name : String} (h : source.supertypes name = .ok []) :
    source.ancestry name = .ok [name] := by
  rw [ancestry, walkUp, if_neg List.not_mem_nil, h]
  rw [walkUp, List.reverse_singleton]

theorem ancestry_of_parent {name parent : String} (h : source.supertypes name = .ok [parent])
    (hne : name ≠ parent) (hparent : source.supertypes parent = .ok [])
    (hbound : source.classBound ≠ 0) : source.ancestry name = .ok [name, parent] := by
  obtain ⟨bound, hbound⟩ := Nat.exists_eq_succ_of_ne_zero hbound
  rw [ancestry, hbound, walkUp, if_neg List.not_mem_nil, h]
  change source.walkUp bound [name] [parent] = _
  rw [walkUp, if_neg (by simpa using hne.symm), hparent]
  rw [walkUp]
  rfl

/-- A member of a class without supertypes is looked for in that class alone. -/
theorem findMembers_of_receivers {ctx : DocumentContext} {r : Reference} {kinds : List TableKind}
    {owner : String} (hname : r.name.isEmpty = false) (howner : ctx.receivers r = [owner])
    (hroot : source.supertypes owner = .ok []) :
    source.findMembers ctx r kinds =
      (source.findNearest kinds r.name [owner]).map Symbol.candidates := by
  rw [findMembers, hname, if_neg Bool.false_ne_true, howner, List.mapM_cons, List.mapM_nil,
    ancestry_of_supertypes_eq_nil hroot]
  simp only [bind, Except.bind]
  cases source.findNearest kinds r.name [owner] with
  | error e => rfl
  | ok hits => exact congrArg (fun l => Except.ok (Symbol.candidates l)) (List.append_nil hits)

end SymbolSource
end PhpIndex
