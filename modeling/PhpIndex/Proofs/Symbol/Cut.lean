import PhpIndex.Proofs.Store.Rows
import PhpIndex.Proofs.Symbol.Candidates
import Mathlib.Data.List.Chain

/-!
# Cutting lists of candidates

Candidates of several lists that are each in order of listing, cut at a number of symbols, are
candidates of these lists cut at the same number: what stands behind so many symbols of its own
list stands behind them among all candidates as well. Neighbours in one list differ, so that none
of them is dropped as a repeat of the other.
Main statement: `take_candidates_flatten`.
-/
namespace PhpIndex

section Sorting
variable {α : Type} {le : α → α → Bool} (trans : ∀ a b c, le a b → le b c → le a c)
  (total : ∀ a b, (le a b || le b a) = true)
include trans total

/-- What is below an element comes first, then what is level with it as it stood, then the rest. -/
theorem mergeSort_eq_parts (x : α) (l : List α) :
    l.mergeSort le = (l.filter fun y => !le x y).mergeSort le ++
      ((l.filter fun y => le x y && le y x) ++ (l.filter fun y => !le y x).mergeSort le) := by
  have hsorted := List.pairwise_mergeSort trans total l
  have hparts {p : α → Bool} {l : List α} (h : l.Pairwise fun a b => p b → p a) :
      l.filter p ++ l.filter (fun a => !p a) = l := by
    rw [← takeWhile_eq_filter h, ← dropWhile_eq_filter h, List.takeWhile_append_dropWhile]
  have hbelow : (l.mergeSort le).Pairwise fun a b => (!le x b) → (!le x a) := by
    refine hsorted.imp fun {a b} hab hb => ?_
    rw [Bool.not_eq_true'] at hb ⊢
    exact Bool.eq_false_iff.2 fun ha => Bool.eq_false_iff.1 hb (trans x a b ha hab)
  have hlevel : ((l.mergeSort le).filter fun y => !!le x y).Pairwise fun a b =>
      le b x → le a x := (hsorted.filter _).imp fun {a b} hab hb => trans a b x hab hb
  -- What is level with the element is in order whatever its order is.
  have hsort : ((l.filter fun y => le x y && le y x).mergeSort le) =
      l.filter fun y => le x y && le y x := by
    refine List.mergeSort_of_pairwise (List.pairwise_of_forall_mem_list fun a ha b hb => ?_)
    have ha := (List.mem_filter.1 ha).2
    have hb := (List.mem_filter.1 hb).2
    rw [Bool.and_eq_true] at ha hb
    exact trans a x b ha.2 hb.1
  have habove : (l.filter fun y => !le y x) = l.filter fun y => !le y x && !!le x y := by
    refine List.filter_congr fun y _ => ?_
    cases hy : le y x with
    | true => rfl
    | false =>
      have hxy := total x y
      rw [hy, Bool.or_false] at hxy
      rw [hxy]
      rfl
  rw [← hparts hbelow, ← hparts hlevel, List.filter_filter, List.filter_filter,
    filter_mergeSort trans total, filter_mergeSort trans total, filter_mergeSort trans total,
    habove, ← hsort]
  simp only [Bool.not_not, Bool.and_comm]

/-- An element is sorted in behind what stood in front of it in order. -/
theorem exists_mergeSort_middle (a : List α) (x : α) (b : List α) :
    ∃ front back, (a ++ x :: b).mergeSort le = front ++ x :: back ∧
      (a ++ b).mergeSort le = front ++ back ∧
        ∀ l : List α, l.Sublist a → l.Pairwise (fun y z => le y z) → (∀ y ∈ l, le y x) →
          l.Sublist front := by
  have hself : le x x := by simpa using total x x
  refine ⟨((a ++ b).filter fun y => !le x y).mergeSort le ++ a.filter fun y => le x y && le y x,
    (b.filter fun y => le x y && le y x) ++ ((a ++ b).filter fun y => !le y x).mergeSort le,
    ?_, ?_, fun l hl hsorted hbelow => ?_⟩
  · rw [mergeSort_eq_parts trans total x]
    simp [hself]
  · rw [mergeSort_eq_parts trans total x]
    simp
  · have hfront : (l.filter fun y => !le x y).Sublist
        (((a ++ b).filter fun y => !le x y).mergeSort le) :=
      List.sublist_mergeSort trans total (hsorted.filter _)
        ((hl.trans (List.sublist_append_left a b)).filter _)
    have hlevel : (l.filter fun y => le x y && le y x).Sublist
        (a.filter fun y => le x y && le y x) := hl.filter _
    have hparts := mergeSort_eq_parts trans total x l
    have hnone : (l.filter fun y => !le y x) = [] :=
      List.filter_eq_nil_iff.2 fun y hy => by simp [hbelow y hy]
    rw [List.mergeSort_of_pairwise hsorted, List.mergeSort_of_pairwise (hsorted.filter _), hnone,
      List.mergeSort_nil, List.append_nil] at hparts
    rw [hparts]
    exact hfront.append hlevel

end Sorting

namespace Symbol

/-- The first symbol stays the first. -/
theorem exists_dropRepeats_cons (s : Symbol) (symbols : List Symbol) :
    ∃ rest, dropRepeats (s :: symbols) = s :: rest := by
  induction symbols generalizing s with
  | nil => exact ⟨[], rfl⟩
  | cons t rest ih =>
    by_cases hst : s = t
    · subst hst
      rw [dropRepeats, if_pos rfl]
      exact ih s
    · rw [dropRepeats, if_neg hst]
      exact ⟨_, rfl⟩

theorem isChain_dropRepeats (symbols : List Symbol) :
    (dropRepeats symbols).IsChain (· ≠ ·) := by
  induction symbols using dropRepeats.induct with
  | case1 a rest ih => rwa [dropRepeats, if_pos rfl]
  | case2 a b rest hab ih =>
    obtain ⟨others, hothers⟩ := exists_dropRepeats_cons b rest
    rw [dropRepeats, if_neg hab]
    rw [hothers] at ih ⊢
    exact .cons_cons hab ih
  | case3 short hshort =>
    rcases short with - | ⟨a, - | ⟨b, rest⟩⟩
    · exact .nil
    · exact .singleton a
    · exact absurd rfl (hshort a b rest)

/-- What follows adds symbols behind those that are kept already. -/
theorem dropRepeats_append (symbols more : List Symbol) :
    dropRepeats symbols <+: dropRepeats (symbols ++ more) := by
  induction symbols using dropRepeats.induct with
  | case1 a rest ih => simpa [dropRepeats] using ih
  | case2 a b rest hab ih => simpa [dropRepeats, hab] using ih
  | case3 short hshort =>
    rcases short with - | ⟨a, - | ⟨b, rest⟩⟩
    · exact List.nil_prefix
    · obtain ⟨rest, hrest⟩ := exists_dropRepeats_cons a more
      exact ⟨rest, hrest.symm⟩
    · exact absurd rfl (hshort a b rest)

/-- Of symbols that differ from their neighbours each is kept, also among others. -/
theorem length_le_dropRepeats {symbols kept : List Symbol} (hkept : kept.IsChain (· ≠ ·))
    (h : kept.Sublist symbols) : kept.length ≤ (dropRepeats symbols).length := by
  induction symbols using dropRepeats.induct generalizing kept with
  | case1 a rest ih =>
    rw [dropRepeats, if_pos rfl]
    refine ih hkept ?_
    -- The two neighbours are not both among the kept ones.
    cases h with
    | cons _ h => exact h
    | cons_cons _ h =>
      cases h with
      | cons _ h => exact h.cons_cons a
      | cons_cons _ _ => exact absurd rfl (List.isChain_cons_cons.1 hkept).1
  | case2 a b rest hab ih =>
    rw [dropRepeats, if_neg hab]
    cases h with
    | cons _ h => exact Nat.le_succ_of_le (ih hkept h)
    | cons_cons _ h => exact Nat.succ_le_succ (ih hkept.tail h)
  | case3 short hshort =>
    rw [dropRepeats]
    · exact h.length_le
    · exact hshort

/-- Whether the symbols are in order of listing and differ from their neighbours. -/
def Listed (symbols : List Symbol) : Prop :=
  symbols.Pairwise (fun a b => listedBefore a b) ∧ symbols.IsChain (· ≠ ·)

theorem listed_candidates (symbols : List Symbol) : Listed (candidates symbols) :=
  ⟨pairwise_candidates symbols, isChain_dropRepeats _⟩

theorem Listed.take {symbols : List Symbol} (h : Listed symbols) (n : Nat) :
    Listed (symbols.take n) := ⟨h.1.take, h.2.take n⟩

/-- A symbol with so many others of its list in front of it does not matter. -/
theorem take_candidates_middle {front back listed : List Symbol} {s : Symbol} {n : Nat}
    (hlisted : Listed (listed ++ [s])) (hfront : listed.Sublist front) (hn : n ≤ listed.length) :
    (candidates (front ++ s :: back)).take n = (candidates (front ++ back)).take n := by
  obtain ⟨before, after, hwith, hwithout, hbefore⟩ :=
    exists_mergeSort_middle listedBefore_trans listedBefore_total front s back
  obtain ⟨hsorted, -, hlast⟩ := List.pairwise_append.1 hlisted.1
  have hroom : n ≤ (dropRepeats before).length :=
    Nat.le_trans hn (length_le_dropRepeats hlisted.2.left_of_append
      (hbefore listed hfront hsorted fun t ht => hlast t ht s List.mem_cons_self))
  have htake (more : List Symbol) :
      (dropRepeats (before ++ more)).take n = (dropRepeats before).take n := by
    obtain ⟨rest, hrest⟩ := dropRepeats_append before more
    rw [← hrest, List.take_append_of_le_length hroom]
  rw [candidates, candidates, hwith, hwithout, htake, htake]

/-- One of the lists may be cut. -/
theorem take_candidates_take (front back : List Symbol) {symbols : List Symbol}
    (h : Listed symbols) (n : Nat) :
    (candidates (front ++ symbols.take n ++ back)).take n =
      (candidates (front ++ symbols ++ back)).take n := by
  induction symbols using List.reverseRecOn with
  | nil => rw [List.take_nil]
  | append_singleton symbols s ih =>
    by_cases hn : n ≤ symbols.length
    · have hsymbols : Listed symbols := ⟨(List.pairwise_append.1 h.1).1, h.2.left_of_append⟩
      rw [List.take_append_of_le_length hn, ih hsymbols, ← List.append_assoc front,
        List.append_assoc _ [s], List.singleton_append]
      exact (take_candidates_middle h (List.sublist_append_right front symbols) hn).symm
    · have hlength : (symbols ++ [s]).length ≤ n := by
        rw [List.length_append, List.length_singleton]
        omega
      rw [List.take_of_length_le hlength]

/-- The first candidates of several lists are the first candidates of what they begin with. -/
theorem take_candidates_flatten {lists : List (List Symbol)} (h : ∀ l ∈ lists, Listed l)
    (n : Nat) : (candidates (lists.map (List.take n)).flatten).take n =
      (candidates lists.flatten).take n := by
  suffices hfront : ∀ front, (candidates (front ++ (lists.map (List.take n)).flatten)).take n =
      (candidates (front ++ lists.flatten)).take n from hfront []
  induction lists with
  | nil => exact fun _ => rfl
  | cons symbols lists ih =>
    intro front
    rw [List.map_cons, List.flatten_cons, List.flatten_cons, ← List.append_assoc,
      ih (fun l hl => h l (List.mem_cons_of_mem symbols hl)) (front ++ symbols.take n),
      take_candidates_take front _ (h symbols List.mem_cons_self), List.append_assoc]

end Symbol
end PhpIndex
