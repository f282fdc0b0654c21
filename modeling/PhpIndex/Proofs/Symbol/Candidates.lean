import PhpIndex.Symbol.Table

/-!
# Candidates

Candidates are the symbols given, in order of listing. Only neighbours are compared when repeats
are dropped, so a repeat is found just if all symbols between it and the first are equal to it as
well: where symbols are told apart by what they are listed by, each is there once. Listing keeps
the order of symbols that are listed at one place, so a list of candidates is known from those of
each document by itself.
Main statements: `mem_candidates`, `pairwise_candidates`, `nodup_candidates`,
`candidates_eq_of_documents`.
-/
namespace PhpIndex

section Sorting
variable {α : Type} {le : α → α → Bool} (trans : ∀ a b c, le a b → le b c → le a c)
  (total : ∀ a b, (le a b || le b a) = true)
include trans total

omit trans total in
/-- A list splits in one way only where a test stops to hold. -/
theorem append_inj_of_test {q : α → Bool} {front back front' back' : List α}
    (hfront : ∀ b ∈ front, q b) (hback : ∀ b ∈ back, ¬ q b) (hfront' : ∀ b ∈ front', q b)
    (hback' : ∀ b ∈ back', ¬ q b) (h : front ++ back = front' ++ back') :
    front = front' ∧ back = back' := by
  have hfilter (front back : List α) (hf : ∀ b ∈ front, q b) (hb : ∀ b ∈ back, ¬ q b) :
      (front ++ back).filter q = front := by
    rw [List.filter_append, List.filter_eq_self.2 hf, List.filter_eq_nil_iff.2 hb,
      List.append_nil]
  have heq : front = front' := by
    rw [← hfilter front back hfront hback, h, hfilter front' back' hfront' hback']
  subst heq
  exact ⟨rfl, List.append_cancel_left h⟩

/-- Sorting keeps the order of what it need not move, so some elements may as well be left out
before. -/
theorem filter_mergeSort (p : α → Bool) (l : List α) :
    (l.mergeSort le).filter p = (l.filter p).mergeSort le := by
  induction l with
  | nil => simp
  | cons a rest ih =>
    obtain ⟨front, back, hsort, hrest, hfront⟩ := List.mergeSort_cons trans total a rest
    rw [hrest, List.filter_append] at ih
    cases ha : p a with
    | false => simp [hsort, ha, ih]
    | true =>
      have hsorted := List.pairwise_mergeSort trans total (a :: rest)
      obtain ⟨front', back', hsort', hrest', hfront'⟩ :=
        List.mergeSort_cons trans total a (rest.filter p)
      have hsorted' := List.pairwise_mergeSort trans total (a :: rest.filter p)
      rw [hsort] at hsorted
      rw [hsort'] at hsorted'
      have hback := (List.pairwise_cons.1 (List.pairwise_append.1 hsorted).2.1).1
      have hback' := (List.pairwise_cons.1 (List.pairwise_append.1 hsorted').2.1).1
      -- What is sorted in front of `a` is what is not above it.
      obtain ⟨hf, hb⟩ := append_inj_of_test (q := fun b => !le a b)
        (fun b hb => hfront b (List.mem_filter.1 hb).1)
        (fun b hb => by simp [hback b (List.mem_filter.1 hb).1]) hfront'
        (fun b hb => by simp [hback' b hb]) (ih.trans hrest')
      simp [hsort, ha, hsort', hf, hb]

end Sorting

namespace Symbol

/-- How two symbols compare in a listing. -/
def listing : Symbol → Symbol → Ordering :=
  compareLex (compareOn fun s => s.location.uri)
    (compareLex (compareOn fun s => s.location.start) (compareOn Symbol.name))

theorem listedBefore_eq (a b : Symbol) : listedBefore a b = (listing a b).isLE := rfl

instance : Std.TransCmp listing := inferInstanceAs (Std.TransCmp (compareLex _ (compareLex _ _)))

theorem listedBefore_trans (a b c : Symbol) (hab : listedBefore a b) (hbc : listedBefore b c) :
    listedBefore a c := by
  rw [listedBefore_eq] at hab hbc ⊢
  exact Std.TransCmp.isLE_trans hab hbc

theorem listedBefore_total (a b : Symbol) : (listedBefore a b || listedBefore b a) = true := by
  have hswap : listing b a = (listing a b).swap := Std.OrientedCmp.eq_swap
  rw [listedBefore_eq, listedBefore_eq, hswap]
  cases listing a b <;> rfl

/-- Symbols listed at one place agree in all that they are listed by. -/
theorem eq_of_listedBefore {a b : Symbol} (hab : listedBefore a b) (hba : listedBefore b a) :
    a.location.uri = b.location.uri ∧ a.location.start = b.location.start ∧ a.name = b.name := by
  have heq : listing a b = .eq := Std.OrientedCmp.isLE_antisymm hab hba
  simp only [listing, compareLex_eq_eq, compareOn] at heq
  exact ⟨Std.LawfulEqOrd.eq_of_compare heq.1, Std.LawfulEqOrd.eq_of_compare heq.2.1,
    Std.LawfulEqOrd.eq_of_compare heq.2.2⟩

theorem listedBefore_congr {s s' t t' : Symbol} (hs : s'.location = s.location)
    (hsname : s'.name = s.name) (ht : t'.location = t.location) (htname : t'.name = t.name) :
    s'.listedBefore t' = s.listedBefore t := by
  rw [listedBefore, listedBefore, hs, hsname, ht, htname]

/-- Whether no two symbols are listed at one place. -/
def Distinct (symbols : List Symbol) : Prop :=
  ∀ a ∈ symbols, ∀ b ∈ symbols, a.location.uri = b.location.uri →
    a.location.start = b.location.start → a.name = b.name → a = b

theorem mem_dropRepeats {symbols : List Symbol} {s : Symbol} :
    s ∈ dropRepeats symbols ↔ s ∈ symbols := by
  induction symbols using dropRepeats.induct with
  | case1 a rest ih =>
    rw [dropRepeats, if_pos rfl, ih]
    simp
  | case2 a b rest hab ih =>
    rw [dropRepeats, if_neg hab, List.mem_cons, ih]
    exact List.mem_cons.symm
  | case3 short hshort =>
    rw [dropRepeats]
    exact hshort

theorem dropRepeats_sublist (symbols : List Symbol) : (dropRepeats symbols).Sublist symbols := by
  induction symbols using dropRepeats.induct with
  | case1 a rest ih =>
    rw [dropRepeats, if_pos rfl]
    exact ih.trans (List.sublist_cons_self a _)
  | case2 a b rest hab ih =>
    rw [dropRepeats, if_neg hab]
    exact ih.cons_cons a
  | case3 short hshort =>
    have heq : dropRepeats short = short := by
      rw [dropRepeats]
      exact hshort
    simp only [heq, List.Sublist.refl]

/-- In order of listing, repeats are neighbours. -/
theorem nodup_dropRepeats {symbols : List Symbol}
    (hsorted : symbols.Pairwise (fun a b => listedBefore a b)) (h : Distinct symbols) :
    (dropRepeats symbols).Nodup := by
  induction symbols using dropRepeats.induct with
  | case1 a rest ih =>
    rw [dropRepeats, if_pos rfl]
    exact ih (List.pairwise_cons.1 hsorted).2 fun x hx y hy =>
      h x (List.mem_cons_of_mem a hx) y (List.mem_cons_of_mem a hy)
  | case2 a b rest hab ih =>
    rw [dropRepeats, if_neg hab]
    have htail := List.pairwise_cons.1 hsorted
    refine List.nodup_cons.2 ⟨fun ha => hab ?_, ih htail.2 fun x hx y hy =>
      h x (List.mem_cons_of_mem a hx) y (List.mem_cons_of_mem a hy)⟩
    -- A later occurrence of `a` is listed behind `b`, and so at its place.
    have hba : listedBefore b a := by
      rcases List.mem_cons.1 (mem_dropRepeats.1 ha) with rfl | ha
      · simpa using listedBefore_total a a
      · exact (List.pairwise_cons.1 htail.2).1 a ha
    obtain ⟨huri, hstart, hname⟩ := eq_of_listedBefore (htail.1 b List.mem_cons_self) hba
    exact h a List.mem_cons_self b (by simp) huri hstart hname
  | case3 short hshort =>
    rw [dropRepeats]
    · cases short with
      | nil => exact List.nodup_nil
      | cons a rest =>
        cases rest with
        | nil => exact List.nodup_cons.2 ⟨List.not_mem_nil, List.nodup_nil⟩
        | cons b rest => exact absurd rfl (hshort a b rest)
    · exact hshort

theorem mem_candidates {symbols : List Symbol} {s : Symbol} :
    s ∈ candidates symbols ↔ s ∈ symbols := by
  rw [candidates, mem_dropRepeats, List.mem_mergeSort]

theorem candidates_singleton {s : Symbol} : candidates [s] = [s] := by
  rw [candidates, List.mergeSort_singleton]
  rfl

theorem pairwise_candidates (symbols : List Symbol) :
    (candidates symbols).Pairwise (fun a b => listedBefore a b) :=
  (List.pairwise_mergeSort listedBefore_trans listedBefore_total symbols).sublist
    (dropRepeats_sublist _)

theorem nodup_candidates {symbols : List Symbol} (h : Distinct symbols) :
    (candidates symbols).Nodup := by
  refine nodup_dropRepeats (List.pairwise_mergeSort listedBefore_trans listedBefore_total symbols)
    fun a ha b hb => ?_
  exact h a (List.mem_mergeSort.1 ha) b (List.mem_mergeSort.1 hb)

/-- Symbols that are told apart by what they are listed by have one order. -/
theorem eq_of_ordered {symbols symbols' : List Symbol} (h : Distinct symbols)
    (hsorted : symbols.Pairwise fun a b => listedBefore a b)
    (hsorted' : symbols'.Pairwise fun a b => listedBefore a b) (hnodup : symbols.Nodup)
    (hnodup' : symbols'.Nodup) (hmem : ∀ s, s ∈ symbols ↔ s ∈ symbols') : symbols = symbols' := by
  refine List.Perm.eq_of_pairwise ?_ hsorted hsorted'
    ((List.perm_ext_iff_of_nodup hnodup hnodup').2 hmem)
  intro a b ha hb hab hba
  obtain ⟨huri, hstart, hname⟩ := eq_of_listedBefore hab hba
  exact h a ha b ((hmem b).2 hb) huri hstart hname

theorem eq_candidates {symbols symbols' : List Symbol} (h : Distinct symbols)
    (hmem : ∀ s, s ∈ symbols ↔ s ∈ symbols') : candidates symbols = candidates symbols' := by
  have h' : Distinct symbols' := fun a ha b hb => h a ((hmem a).2 ha) b ((hmem b).2 hb)
  refine eq_of_ordered (fun a ha b hb => ?_) (pairwise_candidates symbols)
    (pairwise_candidates symbols') (nodup_candidates h) (nodup_candidates h') fun s => ?_
  · exact h a (mem_candidates.1 ha) b (mem_candidates.1 hb)
  · rw [mem_candidates, mem_candidates, hmem]

theorem mergeSort_eq_of_mem_iff {symbols symbols' : List Symbol} (h : Distinct symbols)
    (hnodup : symbols.Nodup) (hnodup' : symbols'.Nodup)
    (hmem : ∀ s, s ∈ symbols ↔ s ∈ symbols') :
    symbols.mergeSort listedBefore = symbols'.mergeSort listedBefore := by
  have hperm (l : List Symbol) : (l.mergeSort listedBefore).Perm l := List.mergeSort_perm l _
  refine eq_of_ordered (fun a ha b hb => ?_)
    (List.pairwise_mergeSort listedBefore_trans listedBefore_total _)
    (List.pairwise_mergeSort listedBefore_trans listedBefore_total _)
    ((hperm symbols).nodup_iff.2 hnodup) ((hperm symbols').nodup_iff.2 hnodup') fun s => ?_
  · exact h a (List.mem_mergeSort.1 ha) b (List.mem_mergeSort.1 hb)
  · rw [List.mem_mergeSort, List.mem_mergeSort, hmem]

theorem length_candidates_le (symbols : List Symbol) :
    (candidates symbols).length ≤ symbols.length :=
  Nat.le_trans (dropRepeats_sublist _).length_le (Nat.le_of_eq (List.length_mergeSort symbols))

theorem candidates_eq_self {symbols : List Symbol}
    (hsorted : symbols.Pairwise fun a b => listedBefore a b) (hnodup : symbols.Nodup) :
    candidates symbols = symbols := by
  rw [candidates, List.mergeSort_of_pairwise hsorted]
  clear hsorted
  induction symbols using dropRepeats.induct with
  | case1 a rest ih => exact absurd List.mem_cons_self (List.nodup_cons.1 hnodup).1
  | case2 a b rest hab ih => rw [dropRepeats, if_neg hab, ih (List.nodup_cons.1 hnodup).2]
  | case3 short hshort => rw [dropRepeats]; exact hshort

/-! ## Images of candidates -/

theorem dropRepeats_map {f : Symbol → Symbol} {symbols : List Symbol}
    (hinj : ∀ a ∈ symbols, ∀ b ∈ symbols, f a = f b → a = b) :
    dropRepeats (symbols.map f) = (dropRepeats symbols).map f := by
  induction symbols using dropRepeats.induct with
  | case1 a rest ih =>
    have hrest := ih fun x hx y hy => hinj x (List.mem_cons_of_mem a hx) y
      (List.mem_cons_of_mem a hy)
    simpa [dropRepeats] using hrest
  | case2 a b rest hab ih =>
    have hrest := ih fun x hx y hy => hinj x (List.mem_cons_of_mem a hx) y
      (List.mem_cons_of_mem a hy)
    have hne : f a ≠ f b := fun h => hab (hinj a (by simp) b (by simp) h)
    simpa [dropRepeats, hab, hne] using hrest
  | case3 short hshort =>
    cases short with
    | nil => rfl
    | cons a rest =>
      cases rest with
      | nil => rfl
      | cons b rest => exact absurd rfl (hshort a b rest)

/-- Candidates may be replaced by others that are listed at the same places. -/
theorem candidates_map {f : Symbol → Symbol} {symbols : List Symbol}
    (hlisted : ∀ a ∈ symbols, ∀ b ∈ symbols, listedBefore a b = listedBefore (f a) (f b))
    (hinj : ∀ a ∈ symbols, ∀ b ∈ symbols, f a = f b → a = b) :
    candidates (symbols.map f) = (candidates symbols).map f := by
  rw [candidates, candidates, ← List.map_mergeSort hlisted, dropRepeats_map]
  intro a ha b hb
  exact hinj a (List.mem_mergeSort.1 ha) b (List.mem_mergeSort.1 hb)

/-! ## Candidates of several documents -/

theorem uri_le_of_listedBefore {a b : Symbol} (h : listedBefore a b) :
    (compare a.location.uri b.location.uri).isLE := by
  unfold listedBefore at h
  cases hcompare : compare a.location.uri b.location.uri with
  | lt => rfl
  | eq => rfl
  | gt => simp [hcompare] at h

/-- The symbols of a document. -/
def ofUri (uri : String) (symbols : List Symbol) : List Symbol :=
  symbols.filter fun s => s.location.uri = uri

theorem mem_ofUri {uri : String} {symbols : List Symbol} {s : Symbol} :
    s ∈ ofUri uri symbols ↔ s ∈ symbols ∧ s.location.uri = uri := by
  rw [ofUri, List.mem_filter, decide_eq_true_eq]

theorem ofUri_cons_self (s : Symbol) (rest : List Symbol) :
    ofUri s.location.uri (s :: rest) = s :: ofUri s.location.uri rest :=
  List.filter_cons_of_pos (decide_eq_true rfl)

theorem ofUri_cons_of_ne {uri : String} {s : Symbol} (h : s.location.uri ≠ uri)
    (rest : List Symbol) : ofUri uri (s :: rest) = ofUri uri rest :=
  List.filter_cons_of_neg (by simpa using h)

/-- Lists in order of listing are equal if they are for each document. -/
theorem eq_of_ofUri_eq {symbols symbols' : List Symbol}
    (hsorted : symbols.Pairwise fun a b => listedBefore a b)
    (hsorted' : symbols'.Pairwise fun a b => listedBefore a b)
    (h : ∀ uri, ofUri uri symbols = ofUri uri symbols') : symbols = symbols' := by
  induction symbols generalizing symbols' with
  | nil =>
    cases symbols' with
    | nil => rfl
    | cons b rest' =>
      have hb := h b.location.uri
      rw [ofUri_cons_self] at hb
      cases hb
  | cons a rest ih =>
    cases symbols' with
    | nil =>
      have ha := h a.location.uri
      rw [ofUri_cons_self] at ha
      cases ha
    | cons b rest' =>
      obtain ⟨hahead, hrest⟩ := List.pairwise_cons.1 hsorted
      obtain ⟨hbhead, hrest'⟩ := List.pairwise_cons.1 hsorted'
      -- Both lists begin with the first document that has any symbols.
      have huri : a.location.uri = b.location.uri := by
        have hamem : a ∈ b :: rest' := by
          have : a ∈ ofUri a.location.uri (b :: rest') := by
            rw [← h, ofUri_cons_self]
            exact List.mem_cons_self
          exact (mem_ofUri.1 this).1
        have hbmem : b ∈ a :: rest := by
          have : b ∈ ofUri b.location.uri (a :: rest) := by
            rw [h, ofUri_cons_self]
            exact List.mem_cons_self
          exact (mem_ofUri.1 this).1
        rcases List.mem_cons.1 hamem with hab | hab
        · rw [hab]
        · rcases List.mem_cons.1 hbmem with hba | hba
          · rw [hba]
          · have hle := uri_le_of_listedBefore (hahead b hba)
            have hge := uri_le_of_listedBefore (hbhead a hab)
            exact Std.LawfulEqOrd.eq_of_compare (Std.OrientedCmp.isLE_antisymm hle hge)
      have hheads := h a.location.uri
      rw [ofUri_cons_self, huri, ofUri_cons_self] at hheads
      obtain ⟨rfl, -⟩ := List.cons.inj hheads
      congr 1
      refine ih hrest hrest' fun uri => ?_
      have huri := h uri
      by_cases hself : a.location.uri = uri
      · subst hself
        rw [ofUri_cons_self, ofUri_cons_self] at huri
        exact (List.cons.inj huri).2
      · rwa [ofUri_cons_of_ne hself, ofUri_cons_of_ne hself] at huri

/-- Candidates are known from the candidates of each document. -/
theorem candidates_eq_of_documents {symbols symbols' : List Symbol}
    (h : ∀ uri, (ofUri uri symbols).mergeSort listedBefore =
      (ofUri uri symbols').mergeSort listedBefore) :
    candidates symbols = candidates symbols' := by
  have hsort : symbols.mergeSort listedBefore = symbols'.mergeSort listedBefore := by
    refine eq_of_ofUri_eq (List.pairwise_mergeSort listedBefore_trans listedBefore_total _)
      (List.pairwise_mergeSort listedBefore_trans listedBefore_total _) fun uri => ?_
    rw [ofUri, filter_mergeSort listedBefore_trans listedBefore_total, ofUri,
      filter_mergeSort listedBefore_trans listedBefore_total]
    exact h uri
  rw [candidates, candidates, hsort]

end Symbol
end PhpIndex
