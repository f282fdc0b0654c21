import PhpIndex.Proofs.Index.Limits
import PhpIndex.Proofs.Workspace.Overlay

/-!
# Limited searches with open documents

A search with open documents asks the store for as many more entries as are stored of these, and
leaves out the symbols of open documents from what it reads. Since no more of them can be read
than are stored, the limit is reached whenever there are enough symbols to be found.
Main statements: `searches_filled`, `searches_unfilled`.
-/
namespace PhpIndex

/-- What is left of a list behind others is as long as what there is of it, up to a limit. -/
theorem min_le_length_filter_take (p : α → Bool) {l : List α} {hidden : Nat}
    (h : (l.filter fun a => !p a).length ≤ hidden) (n : Nat) :
    min n (l.filter p).length ≤ ((l.take (n + hidden)).filter p).length := by
  by_cases hlength : l.length ≤ n + hidden
  · rw [List.take_of_length_le hlength]
    exact Nat.min_le_right n _
  · have hparts := List.length_eq_length_filter_add (l := l.take (n + hidden)) p
    have hfew : ((l.take (n + hidden)).filter fun a => !p a).length ≤ hidden :=
      Nat.le_trans ((List.take_sublist _ l).filter _).length_le h
    rw [List.length_take, Nat.min_eq_left (by omega)] at hparts
    omega

namespace Symbol

/-- Candidates are the symbols in another order if no two of these are the same. -/
theorem candidates_perm {symbols : List Symbol} (h : symbols.Nodup) :
    (candidates symbols).Perm symbols := by
  have hnodup : (candidates symbols).Nodup :=
    ((List.mergeSort_perm symbols listedBefore).symm.nodup h).sublist (dropRepeats_sublist _)
  exact (List.perm_ext_iff_of_nodup hnodup h).2 fun _ => mem_candidates

end Symbol

/-- A keyword is put in lower case once more. -/
theorem Index.search_lower (kind : TableKind) (scope keyword : String) (limit : Nat) :
    search kind scope (Text.lower keyword) limit = search kind scope keyword limit := by
  rw [search, CompletionIndex.search, Text.lower_lower]
  rfl

namespace Holds
variable {rows : Rows} {last : String → Option Version} (h : Holds rows last)
  (hlocated : ∀ uri v, last uri = some v → v.Located)
include h hlocated

/-- What a search makes of its entries with any limit are the first ones of one list. -/
theorem exists_search
    (hnames : ∀ uri v, last uri = some v → ∀ s ∈ v.symbols, FitsText s.indexName)
    (kind : TableKind) {scope keyword : String} (hscope : AtFree scope)
    (hkeyword : NulFree keyword) :
    ∃ stored : List Symbol, stored.Nodup ∧ stored.length ≤ rows.size ∧
      (∀ t, t ∈ stored ↔ ∃ s, Live last kind s ∧ s.Matches scope keyword ∧ t = s.normal) ∧
      ∀ limit, (Index.search kind scope keyword limit).run rows =
        .ok (Symbol.candidates (stored.take limit)) := by
  obtain ⟨entries, hentries, hmem⟩ :=
    h.run_words_search hnames kind hscope hkeyword (Nat.le_refl rows.size)
  have : Nonempty Symbol := ⟨rangeless "" ""⟩
  choose! symbol hlive hname hmatches using fun e (he : e ∈ entries) => (hmem e).1 he
  have hget : ∀ e ∈ entries, ((KindTables.of kind).declarations.get e.uri e.name).run rows =
      .ok (some (symbol e).normal) := by
    intro e he
    obtain ⟨v, hv, hdeclared⟩ := id (hlive e he)
    rw [h.run_declaration ((hlive e he).nulFree h) kind e.name, ← hname e he, hv,
      Option.bind_some, hdeclared]
    rfl
  refine ⟨entries.map fun e => (symbol e).normal, ?nodup, ?few, fun t => ?mem, fun limit => ?run⟩
  case nodup =>
    refine (Index.nodup_of_run_words hentries).map_on fun e he e' he' heq => ?_
    obtain ⟨hlocation, huri⟩ := (hlive e he).location_normal h hlocated
    obtain ⟨hlocation', huri'⟩ := (hlive e' he').location_normal h hlocated
    have huris : e.uri = e'.uri := by rw [← huri, ← huri', ← hlocation, ← hlocation', heq]
    have hnames : e.name = e'.name := by
      rw [← hname e he, ← hname e' he', ← Symbol.indexName_normal, heq, Symbol.indexName_normal]
    cases e
    cases e'
    cases huris
    cases hnames
    rfl
  case few =>
    have hall := Except.ok.inj (hentries.symm.trans (Index.run_words_take hentries rows.size))
    rw [List.length_map, hall]
    exact List.length_take_le _ _
  case mem =>
    rw [List.mem_map]
    constructor
    · rintro ⟨e, he, rfl⟩
      exact ⟨symbol e, ⟨e.uri, hlive e he⟩, hmatches e he, rfl⟩
    · rintro ⟨s, ⟨uri, hs⟩, hsmatches, rfl⟩
      have he := (hmem ⟨uri, s.indexName⟩).2 ⟨s, hs, rfl, hsmatches⟩
      exact ⟨_, he, by rw [(hlive _ he).unique hs (hname _ he)]⟩
  case run =>
    have hreads := Query.run_forEach_eq_map rows fun e he =>
      hget e (List.mem_of_mem_take (i := limit) he)
    refine (Index.run_search_take hentries limit).trans
      ((Query.run_bind_eq_ok rows hreads).trans ?_)
    simp [List.map_take]

end Holds

namespace OpenDocuments
variable {o : OpenDocuments} {kind : TableKind} {scope keyword : String}

/-- Whether a search is to find the symbol: in an open document as it is there, or as it is read
back of a document that is stored and not open. -/
def Offers (o : OpenDocuments) (last : String → Option Version) (kind : TableKind)
    (scope keyword : String) (t : Symbol) : Prop :=
  t.Matches scope keyword ∧ ((∃ e ∈ o.entries, t ∈ e.2.symbolsOfKind kind) ∨
    ∃ uri s, LiveIn last kind uri s ∧ o.get? uri = none ∧ ofRecord (toRecord s) = .ok t)

/-- The symbols of open documents that the search finds. -/
def matching (o : OpenDocuments) (kind : TableKind) (scope keyword : String) : List Symbol :=
  o.symbols kind fun s => s.scope?.getD "" == scope && hasWord (Text.lower keyword) s

theorem mem_matching {t : Symbol} : t ∈ o.matching kind scope keyword ↔
    t.Matches scope keyword ∧ ∃ e ∈ o.entries, t ∈ e.2.symbolsOfKind kind := by
  rw [matching, symbols, List.mem_flatMap, Symbol.matches_iff_hasWord]
  simp only [List.mem_filter]
  constructor
  · rintro ⟨e, he, ht, hmatches⟩
    exact ⟨hmatches, e, he, ht⟩
  · rintro ⟨hmatches, e, he, ht⟩
    exact ⟨e, he, ht, hmatches⟩

theorem uri_of_mem_symbols (ho : o.Valid) {keep : Symbol → Bool} {t : Symbol}
    (ht : t ∈ o.symbols kind keep) : ∃ d, o.get? t.location.uri = some d := by
  obtain ⟨e, he, ht⟩ := List.mem_flatMap.1 ht
  have hsymbols := (Document.mem_symbolsOfKind.1 (List.mem_filter.1 ht).1).1
  exact ⟨e.2, (OrderedMap.get?_eq_some_iff _ _ _).2 (ho.uri e he t hsymbols ▸ he)⟩

/-- Documents share no symbols. -/
theorem nodup_symbols (ho : o.Valid) (hdistinct : ∀ e ∈ o.entries, e.2.symbols.Nodup)
    (kind : TableKind) (keep : Symbol → Bool) : (o.symbols kind keep).Nodup := by
  rw [symbols, List.nodup_flatMap]
  refine ⟨fun e he => ((hdistinct e he).filter _).filter _, ?_⟩
  have huri {e : String × Document} (he : e ∈ o.entries) {s : Symbol}
      (hs : s ∈ (e.2.symbolsOfKind kind).filter keep) : s.location.uri = e.1 :=
    ho.uri e he s (Document.mem_symbolsOfKind.1 (List.mem_filter.1 hs).1).1
  refine o.ascending.imp_of_mem fun {a b} ha hb hab s hsa hsb => ?_
  rw [← huri ha hsa, ← huri hb hsb] at hab
  exact OrderedMap.not_compare_self_lt _ hab

section Searching
variable {rows : Rows} {last : String → Option Version} (h : Holds rows last)
  (hlocated : ∀ uri v, last uri = some v → v.Located)
include h hlocated

/-- No more symbols of open documents are found than are stored of them. -/
theorem length_open_le {hidden : Nat} (hhidden : o.shadowed rows kind = .ok hidden)
    {stored : List Symbol} (hnodup : stored.Nodup)
    (hstored : ∀ t ∈ stored, ∃ s, Live last kind s ∧ t = s.normal) :
    (stored.filter fun s => o.contains s.location.uri).length ≤ hidden := by
  obtain ⟨olds, holds, hcount⟩ := bind_eq_ok hhidden
  cases hcount
  rw [Query.run_forEach] at holds
  refine (List.subperm_of_subset (hnodup.filter _) fun t ht => ?_).length_le
  obtain ⟨ht, hopen⟩ := List.mem_filter.1 ht
  obtain ⟨s, ⟨uri, hs⟩, rfl⟩ := hstored t ht
  obtain ⟨hlocation, huri⟩ := hs.location_normal h hlocated
  rw [hlocation, huri, OrderedMap.contains, Option.isSome_iff_exists] at hopen
  obtain ⟨d, hd⟩ := hopen
  have hkey : uri ∈ o.keys :=
    OrderedMap.mem_keys.2 ⟨d, (OrderedMap.get?_eq_some_iff _ _ _).1 hd⟩
  obtain ⟨old, hold, hrun⟩ := exists_right_of_forall₂ (forall₂_of_mapM_eq_ok holds) hkey
  obtain ⟨old', hrun', hmem⟩ := h.run_symbolsOfKind (hs.nulFree h) kind
  obtain rfl := Except.ok.inj (hrun.symm.trans hrun')
  obtain ⟨v, hv, hdeclared⟩ := hs
  exact List.mem_flatten.2 ⟨old, hold, (hmem _).2 ⟨v, s.indexName, s, hv, hdeclared, rfl⟩⟩

/-- A search merges what is read of the first entries, as many more as may be hidden. -/
theorem search_eq_merge (ho : o.Valid) {stored : List Symbol} (hnodup : stored.Nodup)
    (hstored : ∀ t ∈ stored, ∃ s, Live last kind s ∧ t = s.normal)
    (hsearch : ∀ limit, (Index.search kind scope keyword limit).run rows =
      .ok (Symbol.candidates (stored.take limit))) :
    ∃ hidden, (stored.filter fun s => o.contains s.location.uri).length ≤ hidden ∧
      ∀ limit, (o.source rows).search kind scope keyword limit =
        .ok ((o.merge (Symbol.candidates (stored.take (limit + hidden)))
          (o.matching kind scope keyword)).take limit) := by
  obtain ⟨hidden, hhidden⟩ := run_shadowed h ho kind
  refine ⟨hidden, length_open_le h hlocated hhidden hnodup hstored, fun limit => ?_⟩
  unfold source
  split
  next hempty =>
    have hentries : o.entries = [] := List.isEmpty_iff.1 hempty
    have hnone : hidden = 0 := by
      rw [shadowed, OrderedMap.keys, hentries] at hhidden
      exact (Except.ok.inj hhidden).symm
    have htake := hnodup.sublist (List.take_sublist limit stored)
    have hperm := Symbol.candidates_perm htake
    have hlength : (Symbol.candidates (stored.take limit)).length ≤ limit :=
      Nat.le_trans (Nat.le_of_eq hperm.length_eq) (List.length_take_le _ _)
    rw [hnone, Nat.add_zero, matching, merge_eq, layers_of_isEmpty hempty,
      Symbol.candidates_eq_self (Symbol.pairwise_candidates _) (hperm.symm.nodup htake),
      List.take_of_length_le hlength]
    exact hsearch limit
  next =>
    show o.search rows kind scope keyword limit = _
    rw [search, hhidden]
    simp only [bind, Except.bind, Index.search_lower, hsearch]
    rfl

/-- What a search with a limit finds are symbols that it is to find, as many as the limit allows. -/
theorem search_fills (ho : o.Valid) (hdistinct : ∀ e ∈ o.entries, e.2.symbols.Nodup)
    {stored : List Symbol} (hnodup : stored.Nodup)
    (hstored : ∀ t ∈ stored, ∃ s, Live last kind s ∧ t = s.normal)
    (hsearch : ∀ limit, (Index.search kind scope keyword limit).run rows =
      .ok (Symbol.candidates (stored.take limit))) :
    let all := o.layers stored (o.matching kind scope keyword)
    all.Nodup ∧ ∀ limit, ∃ found, (o.source rows).search kind scope keyword limit = .ok found ∧
      found.length = min limit all.length ∧ found ⊆ all ∧ found.Nodup ∧
        found.Pairwise fun a b => a.listedBefore b := by
  intro all
  obtain ⟨hidden, hhidden, hmerged⟩ := search_eq_merge h hlocated ho hnodup hstored hsearch
  have hopened := nodup_symbols ho hdistinct kind fun s =>
    s.scope?.getD "" == scope && hasWord (Text.lower keyword) s
  have hlayers {some : List Symbol} (hsome : some.Nodup) :
      (o.layers some (o.matching kind scope keyword)).Nodup := by
    refine (hsome.filter _).append hopened fun t ht ht' => ?_
    obtain ⟨d, hd⟩ := uri_of_mem_symbols ho ht'
    have hclosed := (List.mem_filter.1 ht).2
    rw [OrderedMap.contains, hd] at hclosed
    cases hclosed
  refine ⟨hlayers hnodup, fun limit => ⟨_, hmerged limit, ?_⟩⟩
  have hread := hnodup.sublist (List.take_sublist (limit + hidden) stored)
  have hreadPerm := Symbol.candidates_perm hread
  have hperm := Symbol.candidates_perm (hlayers (hreadPerm.symm.nodup hread))
  have hsublist := List.take_sublist limit (o.merge
    (Symbol.candidates (stored.take (limit + hidden))) (o.matching kind scope keyword))
  refine ⟨?length, fun t ht => ?mem, ?nodup, ?ordered⟩
  case length =>
    have hclosed := min_le_length_filter_take (fun s : Symbol => !o.contains s.location.uri)
      (by simpa only [Bool.not_not] using hhidden) limit
    have hfewer := ((List.take_sublist (limit + hidden) stored).filter
      fun s : Symbol => !o.contains s.location.uri).length_le
    rw [List.length_take, merge_eq, hperm.length_eq, layers, List.length_append,
      (hreadPerm.filter _).length_eq, show all.length = _ from List.length_append]
    omega
  case mem =>
    have ht := (hperm.mem_iff.1 (hsublist.subset ht))
    rw [layers, List.mem_append, List.mem_filter, hreadPerm.mem_iff] at ht
    refine List.mem_append.2 (ht.imp_left ?_)
    rintro ⟨ht, hclosed⟩
    exact List.mem_filter.2 ⟨List.mem_of_mem_take ht, hclosed⟩
  case nodup => exact (hperm.symm.nodup (hlayers (hreadPerm.symm.nodup hread))).sublist hsublist
  case ordered => exact (Symbol.pairwise_candidates _).sublist hsublist

/-- What is to be found is stored in closed documents or stands in open ones. -/
theorem mem_layers_iff {stored : List Symbol} (hstored : ∀ t, t ∈ stored ↔
      ∃ s, Live last kind s ∧ s.Matches scope keyword ∧ t = s.normal) {t : Symbol} :
    t ∈ o.layers stored (o.matching kind scope keyword) ↔ o.Offers last kind scope keyword t := by
  rw [layers, List.mem_append, List.mem_filter, mem_matching, hstored, Offers, and_or_left, or_comm]
  refine or_congr_right ⟨?_, ?_⟩
  · rintro ⟨⟨s, ⟨uri, hs⟩, hmatches, rfl⟩, hclosed⟩
    obtain ⟨hlocation, huri⟩ := hs.location_normal h hlocated
    rw [hlocation, huri, OrderedMap.contains, Bool.not_eq_true', Option.isSome_eq_false_iff,
      Option.isNone_iff_eq_none] at hclosed
    exact ⟨Symbol.matches_normal.2 hmatches, uri, s, hs, hclosed, hs.readBack h⟩
  · rintro ⟨hmatches, uri, s, hs, hclosed, ht⟩
    rw [hs.readBack h, Except.ok.injEq] at ht
    subst ht
    obtain ⟨hlocation, huri⟩ := hs.location_normal h hlocated
    refine ⟨⟨s, ⟨uri, hs⟩, Symbol.matches_normal.1 hmatches, rfl⟩, ?_⟩
    rw [hlocation, huri, OrderedMap.contains, hclosed]
    rfl

end Searching
end OpenDocuments

/-- After any run and whatever is open, a search with a limit finds as many of the symbols that
are to be found as there are, up to the limit. A sum that is cut off at a number that the rows do
not reach asks the store for the same. -/
theorem searches_filled {ops : List Operation} (hops : ∀ op ∈ ops, op.Valid)
    (hlocated : ∀ op ∈ ops, op.Located) (hfit : ∀ op ∈ ops, op.NamesFit) {o : OpenDocuments}
    (ho : o.Valid) (hdistinct : ∀ e ∈ o.entries, e.2.symbols.Nodup) :
    ∃ s, Store.volatile.runAll ops = .ok s ∧
      ∀ kind scope keyword, AtFree scope → NulFree keyword →
        (∃ all : List Symbol, all.Nodup ∧
          (∀ t, t ∈ all ↔ o.Offers (lastVersion ops) kind scope keyword t) ∧
          ∀ limit, ∃ found, (o.source s.rows).search kind scope keyword limit = .ok found ∧
            found.length = min limit all.length ∧ found ⊆ all ∧ found.Nodup ∧
              found.Pairwise fun a b => a.listedBefore b) ∧
        ∀ limit hidden top, s.rows.size ≤ top →
          (Index.search kind scope keyword (min (limit + hidden) top)).run s.rows =
            (Index.search kind scope keyword (limit + hidden)).run s.rows := by
  obtain ⟨s, hrun, h⟩ := Holds.runAll (s := .volatile) Holds.empty hops
  have hlast : ∀ uri v, lastVersion ops uri = some v → v.Located := fun _ _ hv =>
    located_of_lastVersion hlocated hv
  refine ⟨s, hrun, fun kind scope keyword hscope hkeyword => ?_⟩
  obtain ⟨stored, hnodup, hfew, hstored, hsearch⟩ := h.exists_search hlast
    (fun _ _ hv => hfit _ (replace_mem_of_lastVersion hv)) kind hscope hkeyword
  have hlive : ∀ t ∈ stored, ∃ s, Live (lastVersion ops) kind s ∧ t = s.normal := fun t ht => by
    obtain ⟨s, hs, -, rfl⟩ := (hstored t).1 ht
    exact ⟨s, hs, rfl⟩
  obtain ⟨hall, hfound⟩ :=
    OpenDocuments.search_fills h hlast ho hdistinct hnodup hlive hsearch
  refine ⟨⟨_, hall, fun t => OpenDocuments.mem_layers_iff h hlast hstored, hfound⟩, ?_⟩
  intro limit hidden top htop
  rw [hsearch, hsearch, ← List.take_take, List.take_of_length_le (Nat.le_trans hfew htop)]

theorem searches_filled_box :
    let get : Symbol := .method ⟨"get", "Box", .of "a.php" ⟨4, 9⟩, {}, {}, .empty, none⟩
    let put : Symbol := .method ⟨"put", "Box", .of "b.php" ⟨4, 9⟩, {}, {}, .empty, none⟩
    let clear : Symbol := .method ⟨"clear", "Box", .of "a.php" ⟨2, 7⟩, {}, {}, .empty, none⟩
    let ops := [.replace (.ofSymbols "a.php" [get, get]), .replace (.ofSymbols "b.php" [put])]
    let o := OpenDocuments.opening .empty (.ofSymbols "a.php" [clear])
    ((∀ op ∈ ops, op.Valid ∧ op.Located ∧ op.NamesFit) ∧ o.Valid ∧
      ∀ e ∈ o.entries, e.2.symbols.Nodup) ∧
    ∃ s, Store.volatile.runAll ops = .ok s ∧ ∃ all : List Symbol, all.Nodup ∧
      (∀ t, t ∈ all ↔ o.Offers (lastVersion ops) .methods "Box" "" t) ∧
      ∀ limit, ∃ found, (o.source s.rows).search .methods "Box" "" limit = .ok found ∧
        found.length = min limit all.length ∧ found ⊆ all ∧ found.Nodup ∧
          found.Pairwise fun a b => a.listedBefore b := by
  intro get put clear ops o
  have hops : ∀ op ∈ ops, op.Valid ∧ op.Located ∧ op.NamesFit := by decide
  have ho : o.Valid := ⟨by decide, by decide⟩
  have hdistinct : ∀ e ∈ o.entries, e.2.symbols.Nodup := by decide
  obtain ⟨s, hrun, hsearch⟩ := searches_filled (fun op hop => (hops op hop).1)
    (fun op hop => (hops op hop).2.1) (fun op hop => (hops op hop).2.2) ho hdistinct
  exact ⟨⟨hops, ho, hdistinct⟩, s, hrun,
    (hsearch .methods "Box" "" (by decide) (by decide)).1⟩

/-- The document whose rangeless or overlong function is stored, opened without it. -/
def emptied : OpenDocuments := .opening .empty (.ofSymbols "a" [])

theorem emptied_offers_nothing {v : Version} (hv : v.uri = "a") (kind : TableKind)
    (scope keyword : String) (t : Symbol) :
    ¬ emptied.Offers (lastVersion [.replace v]) kind scope keyword t := by
  rintro ⟨-, ⟨e, he, ht⟩ | ⟨uri, s, ⟨w, hw, -⟩, hclosed, -⟩⟩
  · obtain rfl := List.mem_singleton.1 he
    cases (Document.mem_symbolsOfKind.1 ht).1
  · have huri : uri = "a" := by
      by_contra hne
      have hnone : lastVersion [.replace v] uri = none := if_neg (hv ▸ hne)
      rw [hnone] at hw
      cases hw
    rw [huri] at hclosed
    cases hclosed

/-- What the search reads of the rangeless function, and how many symbols its document hides. -/
def hiddenReads : Except StoreError (Store × List (Option Symbol) × Nat) := do
  let s ← Store.volatile.runAll [.replace (.ofSymbols "a" [rangeless "a" "int"])]
  let hidden ← emptied.shadowed s.rows .functions
  let reads ← ((KindTables.of .functions).words.search "" "f" (1 + hidden) >>= Query.forEach
    fun e => (KindTables.of .functions).declarations.get e.uri e.name).run s.rows
  pure (s, reads, hidden)

theorem hiddenReads_eq :
    hiddenReads.map Prod.snd = .ok ([some (rangeless "a" "int").normal], 1) := by
  decide +kernel

/-- A stored symbol without a range is found although its document is open without it, and a
stored symbol with an overlong text of an open document keeps any search from answering. -/
theorem searches_unfilled :
    (let v := Version.ofSymbols "a" [rangeless "a" "int"]
     (v.Valid ∧ ∀ s ∈ v.symbols, s.location.uri? = some v.uri) ∧ emptied.Valid ∧
      (∀ t, ¬ emptied.Offers (lastVersion [.replace v]) .functions "" "f" t) ∧
      ∃ s, Store.volatile.runAll [.replace v] = .ok s ∧
        (emptied.source s.rows).search .functions "" "f" 1 =
          .ok [(rangeless "a" "int").normal]) ∧
    let v := Version.ofSymbols "a" [described oversized]
    (NulFree v.uri ∧ (described oversized).Separable ∧ v.Located) ∧
      ∃ s, Store.volatile.runAll [.replace v] = .ok s ∧
        ∀ limit found, (emptied.source s.rows).search .functions "" "f" limit ≠ .ok found := by
  constructor
  · intro v
    refine ⟨⟨by decide, by decide⟩, ⟨by decide, by decide⟩,
      emptied_offers_nothing rfl .functions "" "f", ?_⟩
    obtain ⟨⟨s, reads⟩, hreads, heq⟩ := map_eq_ok hiddenReads_eq
    obtain ⟨s', hrun, hreads⟩ := bind_eq_ok hreads
    obtain ⟨hidden, hhidden, hreads⟩ := bind_eq_ok hreads
    obtain ⟨found, hfound, hreads⟩ := bind_eq_ok hreads
    cases hreads
    cases heq
    have hone : Symbol.candidates [(rangeless "a" "int").normal] =
        [(rangeless "a" "int").normal] := Symbol.candidates_singleton
    have hstored : (Index.search .functions "" "f" (1 + 1)).run s.rows =
        .ok [(rangeless "a" "int").normal] := by
      have hsearch := run_candidates s.rows
        ((KindTables.of .functions).words.search "" "f" (1 + 1)) fun e =>
          (KindTables.of .functions).declarations.get e.uri e.name
      rw [hfound] at hsearch
      exact hsearch.trans (congrArg Except.ok hone)
    have hlayers : emptied.layers [(rangeless "a" "int").normal]
        (emptied.matching .functions "" "f") = [(rangeless "a" "int").normal] := by
      decide
    refine ⟨s, hrun, ?_⟩
    show emptied.search s.rows .functions "" "f" 1 = _
    rw [OpenDocuments.search, hhidden]
    simp only [bind, Except.bind, Index.search_lower, hstored]
    show Except.ok ((emptied.merge _ (emptied.matching .functions "" "f")).take 1) = _
    rw [OpenDocuments.merge_eq, hlayers, hone]
    rfl
  · intro v
    obtain ⟨s, hrun, hrows⟩ := run_replace_volatile (v := v) (by decide)
    refine ⟨⟨by decide, ⟨by decide, fun _ hscope => by cases hscope⟩, by decide⟩, s,
      by rw [Store.runAll, List.foldlM_cons, hrun]; rfl, fun limit found hfound => ?_⟩
    have hrow : ((IndexPart.declarations .functions).table.key (joinKey ["a", "f"]),
        toRecord (described oversized)) ∈
          s.rows.scan ((IndexPart.declarations .functions).table.key (joinKey ["a", ""])) := by
      rw [Rows.mem_scan, hrows]
      exact ⟨v.get?_rows_declaration .functions "f",
        IndexPart.key_prefix_iff.2 ⟨rfl, by decide⟩⟩
    obtain ⟨hidden, hhidden, -⟩ := bind_eq_ok (show emptied.search s.rows .functions "" "f" limit =
      .ok found from hfound)
    obtain ⟨olds, holds, -⟩ := bind_eq_ok hhidden
    rw [Query.run_forEach] at holds
    obtain ⟨old, -, hold⟩ := exists_right_of_forall₂ (forall₂_of_mapM_eq_ok holds)
      (show "a" ∈ emptied.keys from List.mem_singleton_self "a")
    obtain ⟨t, -, ht⟩ := exists_right_of_forall₂
      (forall₂_of_mapM_eq_ok (Index.run_symbolsOfKind_iff.1 hold)) hrow
    exact ofRecord_oversized t ht

end PhpIndex
