import PhpIndex.Proofs.Index.Search

/-!
# Limited searches

A search with a limit stops in the scan of the word rows as soon as it has so many entries. What
it has then are the first of all entries in the order of the rows, that is, in the order of words.
Main statements: `Index.run_words_take`, `Index.run_search_of_room`.
-/
namespace PhpIndex

namespace CompletionIndex
variable {rows : List Row} {room : Nat} {found entries : List CompletionEntry}

/-- What was collected before comes first. -/
theorem reverse_prefix_of_collect (h : collect room found rows = .ok entries) :
    found.reverse <+: entries := by
  induction rows generalizing room found with
  | nil =>
    cases h
    exact List.prefix_rfl
  | cons row rest ih =>
    unfold collect at h
    split at h
    · cases h
      exact List.prefix_rfl
    · split at h
      · cases h
      next entry _ =>
        split at h
        · exact ih h
        · have hnew := ih h
          rw [List.reverse_cons] at hnew
          exact (List.prefix_append _ _).trans hnew

theorem nodup_of_collect (h : collect room found rows = .ok entries) (hfound : found.Nodup) :
    entries.Nodup := by
  induction rows generalizing room found with
  | nil =>
    cases h
    exact List.nodup_reverse.2 hfound
  | cons row rest ih =>
    unfold collect at h
    split at h
    · cases h
      exact List.nodup_reverse.2 hfound
    · split at h
      · cases h
      next entry _ =>
        split at h
        · exact ih h hfound
        next hnew => exact ih h (List.nodup_cons.2 ⟨hnew, hfound⟩)

/-- With less room the first entries are collected. -/
theorem collect_take (h : collect room found rows = .ok entries) (hroom : rows.length ≤ room)
    (limit : Nat) : collect limit found rows = .ok (entries.take (found.length + limit)) := by
  have hfound : entries.take found.length = found.reverse := by
    rw [← List.length_reverse]
    exact (List.prefix_iff_eq_take.1 (reverse_prefix_of_collect h)).symm
  induction rows generalizing room found limit with
  | nil =>
    cases h
    rw [List.take_of_length_le (by rw [List.length_reverse]; omega)]
    rfl
  | cons row rest ih =>
    rw [List.length_cons] at hroom
    by_cases hlimit : limit = 0
    · rw [collect, if_pos hlimit, hlimit, Nat.add_zero, hfound]
    · rw [collect, if_neg (by omega)] at h
      rw [collect, if_neg hlimit]
      cases hentry : (ofRecord row.2 : Except FormatError CompletionEntry) with
      | error e =>
        rw [hentry] at h
        cases h
      | ok entry =>
        rw [hentry] at h
        simp only at h ⊢
        by_cases hknown : entry ∈ found
        · rw [if_pos hknown] at h ⊢
          exact ih h (by omega) limit hfound
        · rw [if_neg hknown] at h ⊢
          have hnew : entries.take (entry :: found).length = (entry :: found).reverse := by
            rw [← List.length_reverse]
            exact (List.prefix_iff_eq_take.1 (reverse_prefix_of_collect h)).symm
          rw [ih h (by omega) (limit - 1) hnew, List.length_cons,
            show found.length + 1 + (limit - 1) = found.length + limit by omega]

end CompletionIndex

namespace Index
variable {rows : Rows} {kind : TableKind} {scope keyword : String} {all : List CompletionEntry}

/-- The rows under words that begin with the keyword. -/
def wordRows (rows : Rows) (kind : TableKind) (scope keyword : String) : List Row :=
  (rows.scan ((IndexPart.words kind).table.key
    (CompletionIndex.wordKey scope (Text.lower keyword)))).map
      fun row => (row.1.drop (IndexPart.words kind).table.lead.length, row.2)

theorem length_wordRows_le (rows : Rows) (kind : TableKind) (scope keyword : String) :
    (wordRows rows kind scope keyword).length ≤ rows.size := by
  rw [wordRows, List.length_map, Rows.scan_eq_filter]
  exact List.length_filter_le _ _

theorem run_words_search (rows : Rows) (kind : TableKind) (scope keyword : String)
    (limit : Nat) : ((KindTables.of kind).words.search scope keyword limit).run rows =
      (CompletionIndex.collect limit [] (wordRows rows kind scope keyword)).mapError
        StoreError.format := by
  refine (Query.run_bind_eq_ok rows (Query.run_scan rows _ _)).trans ?_
  exact Query.run_ofFormat rows _

/-- With a limit the first entries are found. -/
theorem run_words_take
    (h : ((KindTables.of kind).words.search scope keyword rows.size).run rows = .ok all)
    (limit : Nat) :
    ((KindTables.of kind).words.search scope keyword limit).run rows = .ok (all.take limit) := by
  rw [run_words_search] at h ⊢
  cases hcollect : CompletionIndex.collect rows.size [] (wordRows rows kind scope keyword) with
  | error e =>
    rw [hcollect] at h
    cases h
  | ok entries =>
    rw [hcollect] at h
    cases h
    rw [CompletionIndex.collect_take hcollect (length_wordRows_le rows kind scope keyword) limit,
      List.length_nil, Nat.zero_add]
    rfl

theorem nodup_of_run_words {limit : Nat} {entries : List CompletionEntry}
    (h : ((KindTables.of kind).words.search scope keyword limit).run rows = .ok entries) :
    entries.Nodup := by
  rw [run_words_search] at h
  cases hcollect : CompletionIndex.collect limit [] (wordRows rows kind scope keyword) with
  | error e =>
    rw [hcollect] at h
    cases h
  | ok entries =>
    rw [hcollect] at h
    cases h
    exact CompletionIndex.nodup_of_collect hcollect List.nodup_nil

/-- What a search makes of the entries that it finds. -/
def hydrated (kind : TableKind) (entries : List CompletionEntry) : Query (List Symbol) := do
  let found ← Query.forEach
    (fun e : CompletionEntry => (KindTables.of kind).declarations.get e.uri e.name) entries
  pure (Symbol.candidates (found.filterMap id))

theorem run_search_take
    (h : ((KindTables.of kind).words.search scope keyword rows.size).run rows = .ok all)
    (limit : Nat) :
    (search kind scope keyword limit).run rows = (hydrated kind (all.take limit)).run rows :=
  Query.run_bind_eq_ok rows (run_words_take h limit)

/-- Limits that leave room for all entries make no difference. -/
theorem run_search_of_room
    (h : ((KindTables.of kind).words.search scope keyword rows.size).run rows = .ok all)
    {limit : Nat} (hlimit : all.length ≤ limit) :
    (search kind scope keyword limit).run rows = (hydrated kind all).run rows := by
  rw [run_search_take h, List.take_of_length_le hlimit]

/-- No entry makes more than one symbol. -/
theorem length_le_of_run_hydrated {entries : List CompletionEntry} {found : List Symbol}
    (h : (hydrated kind entries).run rows = .ok found) : found.length ≤ entries.length := by
  rw [hydrated, Query.run_bind] at h
  obtain ⟨symbols, hsymbols, hfound⟩ := bind_eq_ok h
  rw [Query.run_forEach] at hsymbols
  cases hfound
  refine Nat.le_trans (Symbol.length_candidates_le _) ?_
  refine Nat.le_trans (List.length_filterMap_le ..) ?_
  exact Nat.le_of_eq (forall₂_of_mapM_eq_ok hsymbols).length_eq.symm

/-- A search lists candidates. -/
theorem exists_candidates_of_run_search {limit : Nat} {found : List Symbol}
    (h : (search kind scope keyword limit).run rows = .ok found) :
    ∃ symbols, found = Symbol.candidates symbols := by
  rw [search, Query.run_bind] at h
  obtain ⟨entries, -, h⟩ := bind_eq_ok h
  rw [Query.run_bind] at h
  obtain ⟨symbols, -, hfound⟩ := bind_eq_ok h
  cases hfound
  exact ⟨_, rfl⟩

end Index
end PhpIndex
