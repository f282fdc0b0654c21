import PhpIndex.Proofs.Index.Search
import PhpIndex.Proofs.Text.Beginnings

/-!
# Search by the beginning of a word

A search lower-cases what was typed, and the words of a name were lower-cased when they were
indexed. What was typed of a word finds the name where the one is the beginning of the other,
which is to say, unless what was typed ends in a capital sigma within the word.
Main statement: `beginnings_found`.
-/
namespace PhpIndex

namespace Text

theorem startsWith_lower_iff (typed rest : List Char) :
    startsWith (lower (String.ofList typed)) (lower (String.ofList (typed ++ rest))) ↔
      ¬ CutsSigma typed rest := by
  rw [startsWith, List.isPrefixOf_iff_prefix, lower, lower, String.toList_ofList,
    String.toList_ofList, String.toList_ofList, String.toList_ofList, lowerFrom_isPrefix_iff]

end Text

namespace Words

theorem subset_of_mem_ofName {name word : String} (h : word ∈ ofName name) :
    word.toList ⊆ name.toList := by
  obtain ⟨cs, hcs, rfl⟩ := List.mem_map.1 h
  rw [String.toList_ofList]
  exact subset_of_mem_ofChars hcs

end Words

theorem Symbol.matches_of_beginning {s : Symbol} {word : String}
    (hword : word ∈ Words.ofName s.completionWord) {typed rest : List Char}
    (hbegins : word.toList = typed ++ rest) (hcut : ¬ Text.CutsSigma typed rest) :
    s.Matches (s.scope?.getD "") (String.ofList typed) := by
  refine ⟨rfl, Text.lower word, Words.mem_indexed.2 ⟨word, hword, rfl⟩, ?_⟩
  rw [← String.ofList_toList (s := word), hbegins]
  exact (Text.startsWith_lower_iff typed rest).2 hcut

namespace Holds
variable {rows : Rows} {last : String → Option Version}

/-- A search finds just those of the live symbols that match. Their locations do not matter. -/
theorem mem_search_iff (h : Holds rows last)
    (hnames : ∀ uri v, last uri = some v → ∀ s ∈ v.symbols, FitsText s.indexName)
    (kind : TableKind) {scope keyword : String} (hscope : AtFree scope)
    (hkeyword : NulFree keyword) {limit : Nat} (hlimit : rows.size ≤ limit) :
    ∃ found, (Index.search kind scope keyword limit).run rows = .ok found ∧
      ∀ s, Live last kind s → (s.normal ∈ found ↔ s.Matches scope keyword) := by
  obtain ⟨entries, hentries, hmem⟩ := h.run_words_search hnames kind hscope hkeyword hlimit
  obtain ⟨found, hfound, hall⟩ := h.run_hydrate kind CompletionEntry.uri
    CompletionEntry.name (fun e he => (hmem e).1 he)
    fun uri s hs (hmatches : s.Matches scope keyword) =>
      ⟨⟨uri, s.indexName⟩, (hmem _).2 ⟨s, hs, rfl, hmatches⟩, rfl, rfl⟩
  refine ⟨_, (Query.run_bind_eq_ok rows hentries).trans hfound, fun s hs => ?_⟩
  rw [Symbol.mem_candidates, hall]
  refine ⟨fun ⟨t, _, hmatches, hnormal⟩ => ?_, fun hmatches => ⟨s, hs, hmatches, rfl⟩⟩
  rw [← Symbol.matches_normal, hnormal]
  exact Symbol.matches_normal.2 hmatches

end Holds

/-- After any run a stored symbol is found by what any word of its name begins with, unless this
ends in a capital sigma that is the end of a word only where it was typed so far. The limit is one
that the store does not reach. -/
theorem beginnings_found {ops : List Operation} (hops : ∀ op ∈ ops, op.Valid)
    (hnames : ∀ op ∈ ops, op.NamesFit) :
    ∃ s, Store.volatile.runAll ops = .ok s ∧ ∀ kind x, Live (lastVersion ops) kind x →
      ∀ word ∈ Words.ofName x.completionWord, ∀ typed rest, word.toList = typed ++ rest →
        (Text.startsWith (Text.lower (String.ofList typed)) (Text.lower word) ↔
          ¬ Text.CutsSigma typed rest) ∧
        (¬ Text.CutsSigma typed rest → ∀ limit, s.rows.size ≤ limit →
          ∃ found, (Index.source s.rows).search kind (x.scope?.getD "") (String.ofList typed)
              limit = .ok found ∧ ∃ t ∈ found, ofRecord (toRecord x) = .ok t) := by
  obtain ⟨s, hrun, h⟩ := Holds.runAll (s := .volatile) Holds.empty hops
  refine ⟨s, hrun, fun kind x hlive word hword typed rest hbegins =>
    ⟨?_, fun hcut limit hlimit => ?_⟩⟩
  · rw [← Text.startsWith_lower_iff, ← hbegins, String.ofList_toList]
  obtain ⟨uri, hlivein⟩ := id hlive
  have hseparable := hlivein.separable h
  have hkeyword : NulFree (String.ofList typed) := by
    intro hzero
    rw [String.toList_ofList] at hzero
    refine hseparable.plain.completionWord (Words.subset_of_mem_ofName hword ?_)
    rw [hbegins]
    exact List.mem_append_left rest hzero
  obtain ⟨found, hfound, hmem⟩ := h.mem_search_iff
    (fun _ _ hv => hnames _ (replace_mem_of_lastVersion hv)) kind hseparable.scopeAt hkeyword hlimit
  exact ⟨found, hfound, x.normal,
    (hmem x hlive).2 (Symbol.matches_of_beginning hword hbegins hcut), hlivein.readBack h⟩

theorem beginnings_found_members :
    let get : Symbol := .method ⟨"getName", "Box", .of "a.php" ⟨4, 9⟩, {}, {}, .empty, none⟩
    let ops := [.replace (.ofSymbols "a.php" [get, get]), .remove "b.php"]
    (∀ op ∈ ops, op.Valid ∧ op.NamesFit) ∧
      ∃ s, Store.volatile.runAll ops = .ok s ∧ ∀ kind x, Live (lastVersion ops) kind x →
        ∀ word ∈ Words.ofName x.completionWord, ∀ typed rest, word.toList = typed ++ rest →
          (Text.startsWith (Text.lower (String.ofList typed)) (Text.lower word) ↔
            ¬ Text.CutsSigma typed rest) ∧
          (¬ Text.CutsSigma typed rest → ∀ limit, s.rows.size ≤ limit →
            ∃ found, (Index.source s.rows).search kind (x.scope?.getD "") (String.ofList typed)
                limit = .ok found ∧ ∃ t ∈ found, ofRecord (toRecord x) = .ok t) := by
  intro get ops
  have hops : ∀ op ∈ ops, op.Valid ∧ op.NamesFit := by decide
  exact ⟨hops, beginnings_found (fun op hop => (hops op hop).1) fun op hop => (hops op hop).2⟩

/-- The sigma of the whole word is a plain one, and where it was typed last it is a final one. -/
theorem beginnings_lost :
    let road : Symbol := .function ⟨"ΟΔΟΣΑ", .of "a" ⟨6, 32⟩, .empty, none⟩
    let ops := [.replace (.ofSymbols "a" [road])]
    (∀ op ∈ ops, op.Valid ∧ op.NamesFit) ∧ Live (lastVersion ops) .functions road ∧
      "ΟΔΟΣΑ" ∈ Words.ofName road.completionWord ∧
      ∃ s, Store.volatile.runAll ops = .ok s ∧ ∀ limit, s.rows.size ≤ limit →
        ∃ found, (Index.source s.rows).search .functions (road.scope?.getD "") "ΟΔΟΣ" limit =
            .ok found ∧ ∀ t ∈ found, ofRecord (toRecord road) ≠ .ok t := by
  intro road ops
  have hops : ∀ op ∈ ops, op.Valid ∧ op.NamesFit := by decide
  have hlive : Live (lastVersion ops) .functions road :=
    ⟨"a", .ofSymbols "a" [road], rfl, by decide⟩
  refine ⟨hops, hlive, by decide +kernel, ?_⟩
  obtain ⟨s, hrun, h⟩ := Holds.runAll (s := .volatile) Holds.empty fun op hop => (hops op hop).1
  refine ⟨s, hrun, fun limit hlimit => ?_⟩
  have hscope : AtFree (road.scope?.getD "") := by decide
  have hkeyword : NulFree "ΟΔΟΣ" := by decide
  obtain ⟨found, hfound, hmem⟩ := h.mem_search_iff
    (fun _ _ hv => (hops _ (replace_mem_of_lastVersion hv)).2) .functions hscope hkeyword hlimit
  refine ⟨found, hfound, fun t ht hread => ?_⟩
  obtain ⟨uri, hlivein⟩ := id hlive
  rw [hlivein.readBack h, Except.ok.injEq] at hread
  have hmatches := (hmem road hlive).1 (hread ▸ ht)
  rw [Symbol.matches_iff_hasWord] at hmatches
  exact absurd hmatches (by decide +kernel)

end PhpIndex
