import PhpIndex.Proofs.Index.Lookup
import PhpIndex.Workspace.Overlay

/-!
# Search by words

A word row stands under the class, an at sign and one word of a live symbol. The rows that a
search visits are those of the class whose word begins with the keyword, so that the symbols
they lead to are found by testing every live symbol, as open documents are.
Main statement: `search_exact`.
-/
namespace PhpIndex

namespace Symbol

theorem Separable.scopeAt {s : Symbol} (h : s.Separable) : AtFree (s.scope?.getD "") := by
  cases hscope : s.scope? with
  | none => exact List.not_mem_nil
  | some owner => exact (h.2 owner hscope).2.1

/-- Whether a search for the keyword in the class finds the symbol. -/
def Matches (scope keyword : String) (s : Symbol) : Prop :=
  s.scope?.getD "" = scope ∧
    ∃ word ∈ Words.indexed s.completionWord, Text.startsWith (Text.lower keyword) word

/-- Open documents are searched by the same test. -/
theorem matches_iff_hasWord {scope keyword : String} {s : Symbol} :
    s.Matches scope keyword ↔
      (s.scope?.getD "" == scope && OpenDocuments.hasWord (Text.lower keyword) s) = true := by
  rw [Matches, OpenDocuments.hasWord, Bool.and_eq_true, beq_iff_eq, List.any_eq_true]

theorem matches_normal {scope keyword : String} {s : Symbol} :
    s.normal.Matches scope keyword ↔ s.Matches scope keyword := by
  rw [Matches, Matches, scope?_normal, completionWord_normal]

/-- Symbols of one class, or of none, are told apart by their names. -/
theorem apartByName_matches (kind : TableKind) (scope keyword : String) :
    ApartByName kind (Matches scope keyword) := by
  intro s t hs ht _ _ hskind htkind hname
  have hsome := (isSome_scope? hskind).trans (isSome_scope? htkind).symm
  have hscopes := hs.1.trans ht.1.symm
  cases hss : s.scope? with
  | none =>
    have hts : t.scope? = none := by
      rw [hss] at hsome
      exact Option.isNone_iff_eq_none.1 (by simpa using hsome.symm)
    rw [indexName, indexName, hss, hts, hname]
  | some owner =>
    obtain ⟨owner', hts⟩ : ∃ owner', t.scope? = some owner' := by
      rw [hss] at hsome
      exact Option.isSome_iff_exists.1 hsome.symm
    rw [hss, hts] at hscopes
    have heq : owner = owner' := hscopes
    rw [indexName, indexName, hss, hts, hname, heq]

end Symbol

namespace CompletionIndex

/-- With room for all rows every entry is collected. -/
theorem collect_eq_ok {rows : List Row} (room : Nat) (found : List CompletionEntry)
    (hroom : rows.length ≤ room)
    (hrows : ∀ row ∈ rows, ∃ e : CompletionEntry, ofRecord row.2 = .ok e) :
    ∃ entries, collect room found rows = .ok entries ∧
      ∀ e, e ∈ entries ↔ e ∈ found ∨ ∃ row ∈ rows, ofRecord row.2 = .ok e := by
  induction rows generalizing room found with
  | nil => exact ⟨found.reverse, rfl, fun e => by simp⟩
  | cons row rest ih =>
    obtain ⟨entry, hentry⟩ := hrows row List.mem_cons_self
    have hrest : ∀ row ∈ rest, ∃ e : CompletionEntry, ofRecord row.2 = .ok e :=
      fun r hr => hrows r (List.mem_cons_of_mem row hr)
    have hsplit (e : CompletionEntry) : (∃ r ∈ row :: rest, ofRecord r.2 = .ok e) ↔
        entry = e ∨ ∃ r ∈ rest, ofRecord r.2 = .ok e := by
      simp [hentry]
    rw [List.length_cons] at hroom
    rw [collect, if_neg (by omega)]
    simp only [hentry]
    by_cases hknown : entry ∈ found
    · obtain ⟨entries, hcollect, hmem⟩ := ih room found (by omega) hrest
      refine ⟨entries, by rwa [if_pos hknown], fun e => ?_⟩
      rw [hmem, hsplit]
      constructor
      · rintro (h | h)
        · exact .inl h
        · exact .inr (.inr h)
      · rintro (h | rfl | h)
        · exact .inl h
        · exact .inl hknown
        · exact .inr h
    · obtain ⟨entries, hcollect, hmem⟩ :=
        ih (room - 1) (entry :: found) (by omega) hrest
      refine ⟨entries, by rwa [if_neg hknown], fun e => ?_⟩
      rw [hmem, hsplit, List.mem_cons, or_assoc, eq_comm, or_left_comm]

/-- What was collected stays. -/
theorem subset_of_collect {rows : List Row} {room : Nat} {found entries : List CompletionEntry}
    (h : collect room found rows = .ok entries) : found ⊆ entries := by
  induction rows generalizing room found with
  | nil =>
    cases h
    exact fun e he => List.mem_reverse.2 he
  | cons row rest ih =>
    unfold collect at h
    split at h
    · cases h
      exact fun e he => List.mem_reverse.2 he
    · split at h
      · cases h
      next entry hentry =>
        split at h
        · exact ih h
        · exact fun e he => ih h (List.mem_cons_of_mem entry he)

end CompletionIndex

namespace Holds
variable {rows : Rows} {last : String → Option Version}

/-- The rows that a scan of words visits. -/
theorem mem_scan_words (h : Holds rows last) (kind : TableKind) {lead : Bytes} {row : Row} :
    row ∈ rows.scan ((IndexPart.words kind).table.key lead) ↔
      ∃ uri s, LiveIn last kind uri s ∧ ∃ word ∈ Words.indexed s.completionWord,
        lead <+: CompletionIndex.key (s.scope?.getD "") word uri s.indexName ∧
          row = ((IndexPart.words kind).table.key
            (CompletionIndex.key (s.scope?.getD "") word uri s.indexName),
              toRecord (⟨uri, s.indexName⟩ : CompletionEntry)) := by
  obtain ⟨key, value⟩ := row
  rw [IndexPart.mem_scan]
  constructor
  · rintro ⟨k, hk, rfl, hget⟩
    obtain ⟨v, hv, s, hs, hkind, word, hword, rfl, rfl⟩ := h.exists_enters hget
    obtain ⟨t, ht⟩ := Version.exists_declared hs hkind
    obtain ⟨htmem, htkind, hname⟩ := Version.declared_eq_some ht
    have hseparable := (h.valid v.uri v hv).separable
    obtain ⟨hscope, hshort⟩ := (hseparable t htmem).indexName_inj (hseparable s hs) htkind hkind
      hname
    rw [← Symbol.completionWord_eq hscope hshort] at hword
    rw [← hname, ← hscope] at hk ⊢
    exact ⟨v.uri, t, ⟨v, hv, hname ▸ ht⟩, word, hword, hk, rfl⟩
  · rintro ⟨uri, s, ⟨v, hv, hs⟩, word, hword, hlead, heq⟩
    obtain ⟨rfl, rfl⟩ := Prod.mk.inj heq
    obtain rfl := h.uri uri v hv
    obtain ⟨hmem, hkind, -⟩ := Version.declared_eq_some hs
    have hseparable := (h.valid v.uri v hv).separable
    have hword' := Words.nulFree_of_mem_indexed (hseparable s hmem).plain.completionWord hword
    refine ⟨_, hlead, rfl, h.get?_of_enters (p := .words kind) hv
      ⟨s, hmem, hkind, word, hword, rfl, rfl⟩ ?_⟩
    rintro value ⟨t, ht, htkind, other, hother, hkey, rfl⟩
    rw [IndexPart.completionKey_eq, IndexPart.completionKey_eq] at hkey
    have hrest := (cut_separator_eq
      (IndexPart.wordKey_zero_not_mem (hseparable s hmem).plain.scope hword')
      (IndexPart.wordKey_zero_not_mem (hseparable t ht).plain.scope
        (Words.nulFree_of_mem_indexed (hseparable t ht).plain.completionWord hother)) hkey).2
    have hname := (List.cons_inj_right 0).1 (List.append_cancel_left hrest)
    rw [Bytes.ofText_inj hname]

/-- What begins with the keyword of a class is a word of that class. -/
theorem prefix_completionKey_iff {scope scope' keyword word uri name : String}
    (hscope : AtFree scope) (hscope' : AtFree scope') (hkeyword : NulFree keyword) :
    CompletionIndex.wordKey scope keyword <+: CompletionIndex.key scope' word uri name ↔
      scope' = scope ∧ Text.startsWith keyword word := by
  have hsplit (scope word : String) : CompletionIndex.wordKey scope word =
      Bytes.ofText scope ++ 64 :: Bytes.ofText word := by
    rw [CompletionIndex.wordKey, Bytes.ofText_append, Bytes.ofText_append, List.append_assoc]
    rfl
  rw [IndexPart.completionKey_eq, hsplit, hsplit, List.append_assoc, List.cons_append,
    Text.startsWith, List.isPrefixOf_iff_prefix, ← Bytes.prefix_iff_ofText]
  constructor
  · intro hbegins
    obtain ⟨heq, hrest⟩ := cut_separator (Bytes.at_not_mem hscope) (Bytes.at_not_mem hscope')
      hbegins
    exact ⟨(Bytes.ofText_inj heq).symm,
      prefix_of_separator (Bytes.zero_not_mem hkeyword) hrest⟩
  · rintro ⟨rfl, rest, hrest⟩
    rw [← hrest]
    exact ⟨rest ++ 0 :: (Bytes.ofText uri ++ 0 :: Bytes.ofText name), by simp⟩

/-- The entries found for a keyword lead to the live symbols that match it. -/
theorem run_words_search (h : Holds rows last)
    (hnames : ∀ uri v, last uri = some v → ∀ s ∈ v.symbols, FitsText s.indexName)
    (kind : TableKind) {scope keyword : String} (hscope : AtFree scope)
    (hkeyword : NulFree keyword) {limit : Nat} (hlimit : rows.size ≤ limit) :
    ∃ entries, ((KindTables.of kind).words.search scope keyword limit).run rows = .ok entries ∧
      ∀ e, e ∈ entries ↔
        ∃ s, LiveIn last kind e.uri s ∧ s.indexName = e.name ∧ s.Matches scope keyword := by
  have hlower := Text.nulFree_lower hkeyword
  have hrow {row : Row} : row ∈ rows.scan ((IndexPart.words kind).table.key
      (CompletionIndex.wordKey scope (Text.lower keyword))) ↔
        ∃ uri s, LiveIn last kind uri s ∧ ∃ word ∈ Words.indexed s.completionWord,
          (s.scope?.getD "" = scope ∧ Text.startsWith (Text.lower keyword) word) ∧
            row = ((IndexPart.words kind).table.key
              (CompletionIndex.key (s.scope?.getD "") word uri s.indexName),
                toRecord (⟨uri, s.indexName⟩ : CompletionEntry)) := by
    rw [h.mem_scan_words]
    refine exists_congr fun uri => exists_congr fun s => and_congr_right fun hs => ?_
    refine exists_congr fun word => and_congr_right fun _ => and_congr_left fun _ => ?_
    exact prefix_completionKey_iff hscope (hs.separable h).scopeAt hlower
  have hread {uri : String} {s : Symbol} (hs : LiveIn last kind uri s) :
      ofRecord (toRecord (⟨uri, s.indexName⟩ : CompletionEntry)) =
        .ok (⟨uri, s.indexName⟩ : CompletionEntry) := by
    obtain ⟨v, hv, hdeclared⟩ := hs
    obtain rfl := h.uri uri v hv
    exact ofRecord_completion (h.valid v.uri v hv).record.1
      (hnames v.uri v hv s (Version.declared_eq_some hdeclared).1)
  have hlength : (rows.scan ((IndexPart.words kind).table.key
      (CompletionIndex.wordKey scope (Text.lower keyword)))).length ≤ limit := by
    rw [Rows.scan_eq_filter]
    exact Nat.le_trans (List.length_filter_le _ _) hlimit
  have hrows : ∀ row ∈ (rows.scan ((IndexPart.words kind).table.key
      (CompletionIndex.wordKey scope (Text.lower keyword)))).map
        (fun row => (row.1.drop (IndexPart.words kind).table.lead.length, row.2)),
      ∃ e : CompletionEntry, ofRecord row.2 = .ok e := by
    intro row hvisited
    obtain ⟨_, hscanned, rfl⟩ := List.mem_map.1 hvisited
    obtain ⟨uri, s, hs, word, -, -, rfl⟩ := hrow.1 hscanned
    exact ⟨_, hread hs⟩
  obtain ⟨entries, hcollect, hmem⟩ := CompletionIndex.collect_eq_ok limit []
    (by simpa only [List.length_map] using hlength) hrows
  refine ⟨entries, ?_, fun e => ?_⟩
  · refine (Query.run_bind_eq_ok rows (Query.run_scan rows _ _)).trans ?_
    exact congrArg (fun r => (Query.ofFormat r).run rows) hcollect
  · rw [hmem]
    constructor
    · rintro (hnil | ⟨row, hvisited, hentry⟩)
      · exact absurd hnil List.not_mem_nil
      · obtain ⟨_, hscanned, rfl⟩ := List.mem_map.1 hvisited
        obtain ⟨uri, s, hs, word, hword, ⟨hscope, hstarts⟩, rfl⟩ := hrow.1 hscanned
        simp only [hread hs, Except.ok.injEq] at hentry
        subst hentry
        exact ⟨s, hs, rfl, hscope, word, hword, hstarts⟩
    · rintro ⟨s, hs, hname, hscope, word, hword, hstarts⟩
      refine .inr ⟨_, List.mem_map.2 ⟨_, hrow.2 ⟨e.uri, s, hs, word, hword,
        ⟨hscope, hstarts⟩, rfl⟩, rfl⟩, ?_⟩
      have hentry := hread hs
      simp only [hname] at hentry ⊢
      exact hentry

theorem search_exact (h : Holds rows last) (hlocated : ∀ uri v, last uri = some v → v.Located)
    (hnames : ∀ uri v, last uri = some v → ∀ s ∈ v.symbols, FitsText s.indexName)
    (kind : TableKind) {scope keyword : String} (hscope : AtFree scope)
    (hkeyword : NulFree keyword) {limit : Nat} (hlimit : rows.size ≤ limit) :
    ∃ found, (Index.search kind scope keyword limit).run rows = .ok found ∧
      (Lists found fun s => Live last kind s ∧ s.Matches scope keyword) ∧
      ∀ all : List Symbol, (∀ t, t ∈ all ↔ ∃ s, Live last kind s ∧ ofRecord (toRecord s) = .ok t) →
        found = Symbol.candidates (all.filter fun s =>
          s.scope?.getD "" == scope && OpenDocuments.hasWord (Text.lower keyword) s) := by
  obtain ⟨entries, hentries, hmem⟩ :=
    h.run_words_search hnames kind hscope hkeyword hlimit
  obtain ⟨found, hfound, hall⟩ := h.run_hydrate kind CompletionEntry.uri
    CompletionEntry.name (fun e he => (hmem e).1 he)
    fun uri s hs (hmatches : s.Matches scope keyword) =>
      ⟨⟨uri, s.indexName⟩, (hmem _).2 ⟨s, hs, rfl, hmatches⟩, rfl, rfl⟩
  have hsame := Symbol.apartByName_matches kind scope keyword
  refine ⟨_, (Query.run_bind_eq_ok rows hentries).trans hfound,
    h.lists_candidates hlocated hsame hall, fun all hlive => ?_⟩
  refine Symbol.eq_candidates (h.distinct hlocated hsame hall) fun t => ?_
  rw [hall, List.mem_filter, ← Symbol.matches_iff_hasWord, hlive]
  constructor
  · rintro ⟨s, ⟨uri, hs⟩, hmatches, rfl⟩
    exact ⟨⟨s, ⟨uri, hs⟩, hs.readBack h⟩, Symbol.matches_normal.2 hmatches⟩
  · rintro ⟨⟨s, ⟨uri, hs⟩, ht⟩, hmatches⟩
    rw [hs.readBack h, Except.ok.injEq] at ht
    subst ht
    exact ⟨s, ⟨uri, hs⟩, Symbol.matches_normal.1 hmatches, rfl⟩

end Holds

/-- Whether the names under which the operation stores symbols fit into a record. -/
def Operation.NamesFit : Operation → Prop
  | .replace v => ∀ s ∈ v.symbols, FitsText s.indexName
  | .remove _ => True

instance : DecidablePred Operation.NamesFit
  | .replace _ => inferInstanceAs (Decidable (∀ _ ∈ _, _))
  | .remove _ => inferInstanceAs (Decidable True)

/-- After any run a search finds the live symbols that match the keyword, as a test of each of
them would. The limit is one that the store does not reach. -/
theorem searches_exact {ops : List Operation} (hops : ∀ op ∈ ops, op.Valid)
    (hlocated : ∀ op ∈ ops, op.Located) (hnames : ∀ op ∈ ops, op.NamesFit) :
    ∃ s, Store.volatile.runAll ops = .ok s ∧ ∀ kind scope keyword limit, AtFree scope →
      NulFree keyword → s.rows.size ≤ limit →
        ∃ found, (Index.source s.rows).search kind scope keyword limit = .ok found ∧
          (Lists found fun x => Live (lastVersion ops) kind x ∧ x.Matches scope keyword) ∧
          ∀ all : List Symbol, (∀ t, t ∈ all ↔
              ∃ x, Live (lastVersion ops) kind x ∧ ofRecord (toRecord x) = .ok t) →
            found = Symbol.candidates (all.filter fun x =>
              x.scope?.getD "" == scope && OpenDocuments.hasWord (Text.lower keyword) x) := by
  obtain ⟨s, hrun, h⟩ := Holds.runAll (s := .volatile) Holds.empty hops
  refine ⟨s, hrun, fun kind scope keyword limit hscope hkeyword hlimit => ?_⟩
  exact h.search_exact (fun uri v hv => located_of_lastVersion hlocated hv)
    (fun uri v hv => hnames _ (replace_mem_of_lastVersion hv)) kind hscope hkeyword hlimit

theorem searches_exact_members :
    let get : Symbol := .method ⟨"getName", "Box", .of "a.php" ⟨4, 9⟩, {}, {}, .empty, none⟩
    let ops := [.replace (.ofSymbols "a.php" [get, get]), .remove "b.php"]
    (∀ op ∈ ops, op.Valid ∧ op.Located ∧ op.NamesFit) ∧
      ∃ s, Store.volatile.runAll ops = .ok s ∧ ∀ kind scope keyword limit, AtFree scope →
        NulFree keyword → s.rows.size ≤ limit →
          ∃ found, (Index.source s.rows).search kind scope keyword limit = .ok found ∧
            (Lists found fun x => Live (lastVersion ops) kind x ∧ x.Matches scope keyword) ∧
            ∀ all : List Symbol, (∀ t, t ∈ all ↔
                ∃ x, Live (lastVersion ops) kind x ∧ ofRecord (toRecord x) = .ok t) →
              found = Symbol.candidates (all.filter fun x =>
                x.scope?.getD "" == scope && OpenDocuments.hasWord (Text.lower keyword) x) := by
  intro get ops
  have hops : ∀ op ∈ ops, op.Valid ∧ op.Located ∧ op.NamesFit := by decide
  exact ⟨hops, searches_exact (fun op hop => (hops op hop).1) (fun op hop => (hops op hop).2.1)
    fun op hop => (hops op hop).2.2⟩

/-- The row that a search visits first is among its entries. -/
theorem mem_entries_of_run_search {rows : Rows} {kind : TableKind} {scope keyword : String}
    {limit : Nat} (hlimit : limit ≠ 0) {entry : CompletionEntry}
    (hsome : ∃ row, row ∈ rows.scan ((IndexPart.words kind).table.key
      (CompletionIndex.wordKey scope (Text.lower keyword))))
    (hread : ∀ row ∈ rows.scan ((IndexPart.words kind).table.key
      (CompletionIndex.wordKey scope (Text.lower keyword))), ofRecord row.2 = .ok entry)
    {entries : List CompletionEntry}
    (h : ((KindTables.of kind).words.search scope keyword limit).run rows = .ok entries) :
    entry ∈ entries := by
  rw [CompletionIndex.search, Query.run_bind_eq_ok rows (Query.run_scan rows _ _)] at h
  rw [show (KindTables.of kind).words.table = (IndexPart.words kind).table from rfl] at h
  cases hrows : rows.scan ((IndexPart.words kind).table.key
      (CompletionIndex.wordKey scope (Text.lower keyword))) with
  | nil =>
    rw [hrows] at hsome
    obtain ⟨row, hrow⟩ := hsome
    exact absurd hrow List.not_mem_nil
  | cons row rest =>
    rw [hrows] at h hread
    simp only [List.map_cons, CompletionIndex.collect, if_neg hlimit,
      hread row List.mem_cons_self, List.not_mem_nil, if_false] at h
    cases hcollect : CompletionIndex.collect (limit - 1) [entry]
        (rest.map fun row => (row.1.drop (IndexPart.words kind).table.lead.length, row.2)) with
    | error e =>
      rw [hcollect] at h
      cases h
    | ok found =>
      rw [hcollect] at h
      cases h
      exact CompletionIndex.subset_of_collect hcollect List.mem_cons_self

/-- Members without a range are listed by their names and not by their documents, and a symbol
with an overlong text is not found at all. -/
theorem searches_inexact :
    ((∀ v ∈ rangelessVersions, v.Valid ∧ ∀ s ∈ v.symbols, s.location.uri? = some v.uri) ∧
      ∃ s, Store.volatile.runAll (rangelessVersions.map .replace) = .ok s ∧
        (Index.source s.rows).search .methods "Box" "get" (UInt64.size - 1) =
          .ok [(rangelessMethod "b" "getId").normal, (rangelessMethod "a" "getName").normal]) ∧
    (described oversized).Separable ∧ (Version.ofSymbols "a" [described oversized]).Located ∧
      ∃ s, Store.volatile.runAll [.replace (.ofSymbols "a" [described oversized])] = .ok s ∧
        ∀ found, (Index.source s.rows).search .functions "" "f" (UInt64.size - 1) ≠ .ok found := by
  refine ⟨⟨by decide, ?_⟩, ⟨by decide, nofun⟩, by decide, ?_⟩
  · obtain ⟨s, hrun, hfound⟩ := exists_listed_rangeless
      ((KindTables.of .methods).words.search "Box" "get" (UInt64.size - 1))
      (fun e => (KindTables.of .methods).declarations.get e.uri e.name) (by decide +kernel)
    exact ⟨s, hrun, hfound⟩
  · obtain ⟨s, hrun, hrows⟩ := run_replace_volatile (v := .ofSymbols "a" [described oversized])
      (by decide)
    refine ⟨s, by rw [Store.runAll, List.foldlM_cons, hrun]; rfl, fun found hfound => ?_⟩
    have hrow : s.rows.get? ((IndexPart.declarations .functions).table.key (joinKey ["a", "f"])) =
        some (toRecord (described oversized)) := by
      rw [hrows]
      exact Version.get?_rows_declaration (.ofSymbols "a" [described oversized]) .functions "f"
    have hword {k value : Bytes} (h : (Version.ofSymbols "a" [described oversized]).Enters
        (.words .functions) k value) : value = toRecord (⟨"a", "f"⟩ : CompletionEntry) := by
      obtain ⟨t, ht, -, word, -, -, rfl⟩ := h
      obtain rfl := List.mem_singleton.1 ht
      rfl
    have hscan {row : Row} (h : row ∈ s.rows.scan ((IndexPart.words .functions).table.key
        (CompletionIndex.wordKey "" (Text.lower "f")))) :
        row.2 = toRecord (⟨"a", "f"⟩ : CompletionEntry) := by
      obtain ⟨hget, hbegins⟩ := Rows.mem_scan.1 h
      rw [hrows] at hget
      obtain ⟨p, k, hkey, henters⟩ := Version.exists_enters hget
      rw [hkey] at hbegins
      obtain ⟨rfl, -⟩ := IndexPart.key_prefix_iff.1 hbegins
      exact hword henters
    have hsome : ((IndexPart.words .functions).table.key (CompletionIndex.key "" "f" "a" "f"),
        toRecord (⟨"a", "f"⟩ : CompletionEntry)) ∈
          s.rows.scan ((IndexPart.words .functions).table.key
            (CompletionIndex.wordKey "" (Text.lower "f"))) := by
      rw [Rows.mem_scan, hrows]
      refine ⟨(Version.get?_rows_iff (p := .words .functions) fun _ h => hword h).2
        ⟨_, List.mem_cons_self, rfl, "f", by decide, rfl, rfl⟩,
        IndexPart.key_prefix_iff.2 ⟨rfl, ?_⟩⟩
      decide
    cases hentries : ((KindTables.of .functions).words.search "" "f" (UInt64.size - 1)).run
        s.rows with
    | error e =>
      rw [show (Index.source s.rows).search .functions "" "f" (UInt64.size - 1) = _ from
        Query.run_bind _ _ _, hentries] at hfound
      cases hfound
    | ok entries =>
      have hmem : (⟨"a", "f"⟩ : CompletionEntry) ∈ entries :=
        mem_entries_of_run_search (by decide) ⟨_, hsome⟩
          (fun row hrow => hscan hrow ▸ ofRecord_completion (by decide) (by decide)) hentries
      refine hydrate_ne_ok CompletionEntry.uri CompletionEntry.name hmem hrow
        ofRecord_oversized found ?_
      exact (Query.run_bind_eq_ok s.rows hentries).symm.trans hfound

end PhpIndex
