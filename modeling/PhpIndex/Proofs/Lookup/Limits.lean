import PhpIndex.Lookup.Completion
import PhpIndex.Proofs.Index.Limits
import PhpIndex.Proofs.Symbol.Cut
import PhpIndex.Proofs.Workspace.Overlay

/-!
# Limits of completion

A list of completions at the top level is made of one search for each kind of declaration, each
with the limit of the whole list. As long as no search has to leave entries out, a smaller limit
cuts the list that a larger one gives, with or without open documents. A search that leaves
entries out leaves out those with the last words, whose symbols may be the first to be listed;
the list then begins with others.
Main statements: `limits_cut`, `limits_reorder`.
-/
namespace PhpIndex

/-- What is made of each item by a function of its own may be made of all of them afterwards. -/
theorem mapM_eq_map_mapM {f g : α → Except ε β} {φ : β → β} {l : List α}
    (h : ∀ a ∈ l, f a = (g a).map φ) : l.mapM f = (l.mapM g).map (List.map φ) := by
  induction l with
  | nil => rfl
  | cons a rest ih =>
    rw [List.mapM_cons, List.mapM_cons, h a List.mem_cons_self,
      ih fun b hb => h b (List.mem_cons_of_mem a hb)]
    cases g a with
    | error e => rfl
    | ok b => cases rest.mapM g <;> rfl

namespace SymbolSource

/-- Whether both limits cut one list of candidates, or the source fails with either. -/
def CutsAt (source : SymbolSource) (kind : TableKind) (query : String) (n m : Nat) : Prop :=
  ∃ list : Except StoreError (List Symbol), (∀ l, list = .ok l → Symbol.Listed l) ∧
    source.search kind "" query n = list.map (List.take n) ∧
    source.search kind "" query m = list.map (List.take m)

variable {source : SymbolSource} {query : String} {n m : Nat}

theorem searchTopLevel_take (hnm : n ≤ m)
    (h : ∀ kind ∈ TableKind.topLevel, source.CutsAt kind query n m) :
    (source.searchTopLevel query n).map (List.take n) =
      (source.searchTopLevel query m).map (List.take n) := by
  have : Nonempty (Except StoreError (List Symbol)) := ⟨.ok []⟩
  choose! lists hlisted hn hm using h
  have hsearch (limit : Nat)
      (hlists : ∀ kind ∈ TableKind.topLevel,
        source.search kind "" query limit = (lists kind).map (List.take limit)) :
      source.searchTopLevel query limit = (TableKind.topLevel.mapM lists).map fun ls =>
        Symbol.candidates (ls.map (List.take limit)).flatten := by
    rw [searchTopLevel, mapM_eq_map_mapM hlists]
    cases TableKind.topLevel.mapM lists <;> rfl
  rw [hsearch n hn, hsearch m hm]
  cases hls : TableKind.topLevel.mapM lists with
  | error e => rfl
  | ok ls =>
    have hall : ∀ l ∈ ls, Symbol.Listed l := by
      intro l hl
      obtain ⟨kind, hkind, hlist⟩ := exists_left_of_forall₂ (forall₂_of_mapM_eq_ok hls) hl
      exact hlisted kind hkind l hlist
    have hcut : ∀ l ∈ ls.map (List.take m), Symbol.Listed l := by
      intro l hl
      obtain ⟨whole, hwhole, rfl⟩ := List.mem_map.1 hl
      exact (hall whole hwhole).take m
    have htwice : (ls.map (List.take m)).map (List.take n) = ls.map (List.take n) := by
      rw [List.map_map]
      refine List.map_congr_left fun l _ => ?_
      rw [Function.comp_apply, List.take_take, Nat.min_eq_left hnm]
    refine congrArg Except.ok ?_
    rw [← Symbol.take_candidates_flatten hcut, htwice]

theorem workspaceSymbols_take (hnm : n ≤ m)
    (h : ∀ kind ∈ TableKind.topLevel, source.CutsAt kind query n m) :
    source.workspaceSymbols query n = (source.workspaceSymbols query m).map (List.take n) := by
  have hcut (limit : Nat) : source.workspaceSymbols query limit =
      (source.searchTopLevel query limit).map (List.take limit) := by
    rw [workspaceSymbols]
    cases source.searchTopLevel query limit <;> rfl
  rw [hcut, hcut, searchTopLevel_take hnm h]
  cases source.searchTopLevel query m with
  | error e => rfl
  | ok found => simp [Except.map, List.take_take, hnm]

/-- Whether completion searches at the top level for what was typed of the reference. -/
def Typed (query : String) (r : Reference) (offset : UInt32) : Prop :=
  r.kind ≠ .argumentList ∧ r.kind ≠ .variable ∧ r.kind.isMember = false ∧
    typedKeyword ((r.types.first?.map TypeName.shortName).getD "") r.range? offset = query

theorem completion_of_typed {r : Reference} {offset : UInt32} (hr : Typed query r offset)
    (ctx : DocumentContext) (limit : Nat) :
    source.completion ctx r offset limit = source.workspaceSymbols query limit := by
  obtain ⟨hlist, hvariable, hmember, hquery⟩ := hr
  rw [completion, if_neg hlist, if_neg hvariable, hmember, workspaceSymbols]
  simp only [Bool.false_eq_true, if_false, hquery]

end SymbolSource

namespace OpenDocuments
variable {o : OpenDocuments} {rows : Rows} {kind : TableKind} {query : String} {n m : Nat}

/-- How many entries a search with the limit asks the store for: with documents open as many more
as are stored of them. -/
def asked (o : OpenDocuments) (rows : Rows) (kind : TableKind) (limit : Nat) :
    Except StoreError Nat :=
  if o.isEmpty then .ok limit else (o.shadowed rows kind).map (limit + ·)

/-- Whether a search with the limit leaves out none of the entries that the store has. -/
def Uncut (o : OpenDocuments) (rows : Rows) (query : String) (limit : Nat) (kind : TableKind) :
    Prop :=
  ∃ entries, ((KindTables.of kind).words.search "" query rows.size).run rows = .ok entries ∧
    ∀ room, o.asked rows kind limit = .ok room → entries.length ≤ room

theorem Uncut.cutsAt (h : o.Uncut rows query n kind) (hnm : n ≤ m) :
    (o.source rows).CutsAt kind query n m := by
  obtain ⟨entries, hentries, hroom⟩ := h
  have hlower : ((KindTables.of kind).words.search "" (Text.lower query) rows.size).run rows =
      .ok entries := by
    rw [← hentries, Index.run_words_search, Index.run_words_search, Index.wordRows,
      Text.lower_lower]
    rfl
  unfold asked at hroom
  unfold source
  by_cases hempty : o.isEmpty
  · rw [if_pos hempty] at hroom ⊢
    have hlength := hroom n rfl
    have hsearch {limit : Nat} (hlimit : n ≤ limit) :
        (Index.source rows).search kind "" query limit =
          ((Index.hydrated kind entries).run rows).map (List.take limit) := by
      rw [show (Index.source rows).search kind "" query limit = _ from
        Index.run_search_of_room hentries (Nat.le_trans hlength hlimit)]
      cases hfound : (Index.hydrated kind entries).run rows with
      | error e => rfl
      | ok found =>
        have hfew := Index.length_le_of_run_hydrated hfound
        rw [Except.map, List.take_of_length_le (by omega)]
    refine ⟨(Index.hydrated kind entries).run rows, fun l hl => ?_, hsearch (Nat.le_refl n),
      hsearch hnm⟩
    obtain ⟨symbols, rfl⟩ := Index.exists_candidates_of_run_search
      ((Index.run_search_of_room hentries (Nat.le_refl _)).trans hl)
    exact Symbol.listed_candidates symbols
  · rw [if_neg hempty] at hroom ⊢
    -- Either limit asks for all entries, and what is merged from them is cut afterwards.
    have hsearch {limit : Nat} (hlimit : n ≤ limit) :
        o.search rows kind "" query limit = (do
          let _ ← o.shadowed rows kind
          let stored ← (Index.hydrated kind entries).run rows
          pure (o.merge stored (o.symbols kind fun s =>
            s.scope?.getD "" == "" && hasWord (Text.lower query) s))).map (List.take limit) := by
      rw [search]
      cases hhidden : o.shadowed rows kind with
      | error e => rfl
      | ok hidden =>
        have hlength := hroom (n + hidden) (by rw [hhidden]; rfl)
        have hstored := Index.run_search_of_room hlower
          (Nat.le_trans hlength (Nat.add_le_add_right hlimit hidden))
        simp only [bind, Except.bind, hstored]
        cases (Index.hydrated kind entries).run rows <;> rfl
    refine ⟨_, fun l hl => ?_, hsearch (Nat.le_refl n), hsearch hnm⟩
    obtain ⟨_, -, hl⟩ := bind_eq_ok hl
    obtain ⟨stored, -, hl⟩ := bind_eq_ok hl
    cases hl
    exact Symbol.listed_candidates _

end OpenDocuments

/-- As long as no search leaves entries out, the list for a limit is that for a larger one, cut
off. A search that leaves out some keeps the first ones in the order of words. -/
theorem limits_cut {rows : Rows} {o : OpenDocuments} {query : String} {n m : Nat} (hnm : n ≤ m)
    (huncut : ∀ kind ∈ TableKind.topLevel, o.Uncut rows query n kind) :
    (o.source rows).workspaceSymbols query n =
        ((o.source rows).workspaceSymbols query m).map (List.take n) ∧
      (∀ ctx r offset, SymbolSource.Typed query r offset →
        (o.source rows).completion ctx r offset n =
          ((o.source rows).completion ctx r offset m).map (List.take n)) ∧
      ∀ kind entries,
        ((KindTables.of kind).words.search "" query rows.size).run rows = .ok entries →
          ((KindTables.of kind).words.search "" query n).run rows = .ok (entries.take n) := by
  have hsymbols := SymbolSource.workspaceSymbols_take hnm fun kind hkind =>
    (huncut kind hkind).cutsAt hnm
  refine ⟨hsymbols, fun ctx r offset hr => ?_, fun kind entries h => Index.run_words_take h n⟩
  rw [SymbolSource.completion_of_typed hr, SymbolSource.completion_of_typed hr, hsymbols]

/-! ## A list that begins with other symbols -/

/-- A function of a document, and nothing more of either. -/
def plainFunction (uri name : String) : Symbol := .function ⟨name, .of uri ⟨6, 20⟩, .empty, none⟩

/-- Three documents with a function each. The first of them has the last name. -/
def threeFunctions : List Operation :=
  [.replace (.ofSymbols "a.php" [plainFunction "a.php" "zip"]),
    .replace (.ofSymbols "b.php" [plainFunction "b.php" "map"]),
    .replace (.ofSymbols "c.php" [plainFunction "c.php" "all"])]

/-- The last of the documents, opened as it is stored. -/
def lastOpened : OpenDocuments :=
  .opening .empty (.ofSymbols "c.php" [plainFunction "c.php" "all"])

/-- What the searches find without a limit among the three documents, and how much room there is
for them in a list of two while the last document is open. -/
def threeRooms : Except StoreError (Store × List (List CompletionEntry) × List Nat) := do
  let s ← Store.volatile.runAll threeFunctions
  let entries ← TableKind.topLevel.mapM fun kind =>
    ((KindTables.of kind).words.search "" "" s.rows.size).run s.rows
  let rooms ← TableKind.topLevel.mapM fun kind => lastOpened.asked s.rows kind 2
  pure (s, entries, rooms)

theorem threeRooms_eq : threeRooms.map Prod.snd =
    .ok ([[], [⟨"c.php", "all"⟩, ⟨"b.php", "map"⟩, ⟨"a.php", "zip"⟩], []], [2, 3, 2]) := by
  decide +kernel

theorem limits_cut_two :
    ∃ s, Store.volatile.runAll threeFunctions = .ok s ∧
      (∀ kind ∈ TableKind.topLevel, lastOpened.Uncut s.rows "" 2 kind) ∧
      (lastOpened.source s.rows).workspaceSymbols "" 2 =
        ((lastOpened.source s.rows).workspaceSymbols "" 3).map (List.take 2) := by
  obtain ⟨⟨s, entries, rooms⟩, hthree, hparts⟩ := map_eq_ok threeRooms_eq
  obtain ⟨s', hrun, hthree⟩ := bind_eq_ok hthree
  obtain ⟨entries', hentries, hthree⟩ := bind_eq_ok hthree
  obtain ⟨rooms', hrooms, hthree⟩ := bind_eq_ok hthree
  cases hthree
  cases hparts
  have hentries := forall₂_of_mapM_eq_ok hentries
  have hrooms := forall₂_of_mapM_eq_ok hrooms
  simp only [List.forall₂_cons, TableKind.topLevel] at hentries hrooms
  obtain ⟨hclasses, hfunctions, hconstants, -⟩ := hentries
  obtain ⟨hclassRoom, hfunctionRoom, hconstantRoom, -⟩ := hrooms
  have huncut : ∀ kind ∈ TableKind.topLevel, lastOpened.Uncut s.rows "" 2 kind := by
    intro kind hkind
    have hroom {entries : List CompletionEntry} {room : Nat}
        (hentries : ((KindTables.of kind).words.search "" "" s.rows.size).run s.rows = .ok entries)
        (hroom : lastOpened.asked s.rows kind 2 = .ok room) (hle : entries.length ≤ room) :
        lastOpened.Uncut s.rows "" 2 kind := by
      refine ⟨entries, hentries, fun room' h => ?_⟩
      cases hroom.symm.trans h
      exact hle
    simp only [TableKind.topLevel, List.mem_cons, List.not_mem_nil, or_false] at hkind
    rcases hkind with rfl | rfl | rfl
    · exact hroom hclasses hclassRoom (by decide)
    · exact hroom hfunctions hfunctionRoom (by decide)
    · exact hroom hconstants hconstantRoom (by decide)
  exact ⟨s, hrun, huncut, (limits_cut (by decide) huncut).1⟩

/-- What a search of all words reads, before it is sorted. -/
def wordReads (kind : TableKind) (limit : Nat) : Query (List (Option Symbol)) :=
  (KindTables.of kind).words.search "" "" limit >>= Query.forEach fun e =>
    (KindTables.of kind).declarations.get e.uri e.name

theorem search_of_wordReads {rows : Rows} {kind : TableKind} {limit : Nat} (reads : List Symbol)
    (h : (wordReads kind limit).run rows = .ok (reads.map some)) :
    (Index.source rows).search kind "" "" limit = .ok (Symbol.candidates reads) := by
  refine (run_candidates rows ((KindTables.of kind).words.search "" "" limit) fun e =>
    (KindTables.of kind).declarations.get e.uri e.name).trans ?_
  rw [show ((KindTables.of kind).words.search "" "" limit >>= Query.forEach fun e =>
    (KindTables.of kind).declarations.get e.uri e.name) = wordReads kind limit from rfl, h]
  simp [Except.map]

/-- The symbols of the open document that a search of all words finds. -/
def openedWords (kind : TableKind) : List Symbol :=
  lastOpened.symbols kind fun s =>
    s.scope?.getD "" == "" && OpenDocuments.hasWord (Text.lower "") s

theorem search_lastOpened {rows : Rows} {kind : TableKind} {hidden : Nat} (reads : List Symbol)
    (hhidden : lastOpened.shadowed rows kind = .ok hidden)
    (hreads : (wordReads kind (1 + hidden)).run rows = .ok (reads.map some)) :
    (lastOpened.source rows).search kind "" "" 1 =
      .ok ((lastOpened.merge (Symbol.candidates reads) (openedWords kind)).take 1) := by
  have hlower : Text.lower "" = "" := by decide
  have hstored : (Index.search kind "" "" (1 + hidden)).run rows = _ :=
    search_of_wordReads reads hreads
  show lastOpened.search rows kind "" "" 1 = _
  rw [OpenDocuments.search, hhidden]
  simp only [bind, Except.bind, hlower, hstored]
  rfl

/-- Sorts a few symbols by hand. -/
theorem Symbol.candidates_eq {symbols listed : List Symbol} (hperm : symbols.Perm listed)
    (hdistinct : Distinct symbols) (hsorted : listed.Pairwise fun a b => listedBefore a b)
    (hnodup : listed.Nodup) : candidates symbols = listed :=
  (eq_candidates hdistinct fun _ => hperm.mem_iff).trans (candidates_eq_self hsorted hnodup)

/-- Where only functions are found, they are the list. -/
theorem SymbolSource.workspaceSymbols_of_functions {source : SymbolSource} {query : String}
    {limit : Nat} {found : List Symbol} (hclasses : source.search .classes "" query limit = .ok [])
    (hfunctions : source.search .functions "" query limit = .ok found)
    (hconstants : source.search .constants "" query limit = .ok [])
    (hsorted : found.Pairwise fun a b => a.listedBefore b) (hnodup : found.Nodup) :
    source.workspaceSymbols query limit = .ok (found.take limit) := by
  have hself : Symbol.candidates [[], found, []].flatten = found := by
    simpa using Symbol.candidates_eq_self hsorted hnodup
  rw [workspaceSymbols, searchTopLevel, TableKind.topLevel]
  simp only [List.mapM_cons, List.mapM_nil, hclasses, hfunctions, hconstants]
  exact congrArg (fun l => Except.ok (l.take limit)) hself

/-- What is read of the three documents, kind by kind, and how many symbols the open one hides. -/
def threeReads : Except StoreError (Store × List (List (Option Symbol)) × List Nat) := do
  let s ← Store.volatile.runAll threeFunctions
  let reads ← [(TableKind.classes, 1), (.functions, 1), (.constants, 1), (.classes, 3),
    (.functions, 3), (.constants, 3), (.functions, 2)].mapM fun (kind, limit) =>
      (wordReads kind limit).run s.rows
  let hidden ← TableKind.topLevel.mapM (lastOpened.shadowed s.rows)
  pure (s, reads, hidden)

theorem threeReads_eq : threeReads.map Prod.snd =
    .ok ([[], [some (plainFunction "c.php" "all")], [], [],
      [some (plainFunction "c.php" "all"), some (plainFunction "b.php" "map"),
        some (plainFunction "a.php" "zip")], [],
      [some (plainFunction "c.php" "all"), some (plainFunction "b.php" "map")]], [0, 1, 0]) := by
  decide +kernel

/-- With room for one function the list is none of the larger lists cut off, and it becomes
another one when a document is opened as it is stored. -/
theorem limits_reorder :
    let zip := plainFunction "a.php" "zip"
    let map := plainFunction "b.php" "map"
    let all := plainFunction "c.php" "all"
    let r : Reference :=
      { kind := .function, types := .single ⟨"zip", true⟩, location := .of "d.php" ⟨0, 3⟩ }
    ∃ s, Store.volatile.runAll threeFunctions = .ok s ∧
      (Index.source s.rows).workspaceSymbols "" 1 = .ok [all] ∧
      (Index.source s.rows).workspaceSymbols "" 3 = .ok [zip, map, all] ∧
      (lastOpened.source s.rows).workspaceSymbols "" 1 = .ok [map] ∧
      SymbolSource.Typed "" r 0 ∧
      (Index.source s.rows).completion (.empty "d.php") r 0 1 = .ok [all] ∧
      (Index.source s.rows).completion (.empty "d.php") r 0 3 = .ok [zip, map, all] := by
  intro zip map all r
  obtain ⟨⟨s, reads⟩, hthree, hreads⟩ := map_eq_ok threeReads_eq
  obtain ⟨s', hrun, hthree⟩ := bind_eq_ok hthree
  obtain ⟨found, hfound, hthree⟩ := bind_eq_ok hthree
  obtain ⟨hidden, hhidden, hthree⟩ := bind_eq_ok hthree
  obtain ⟨rfl, rfl⟩ := Prod.mk.inj (Except.ok.inj hthree)
  obtain ⟨rfl, rfl⟩ := Prod.mk.inj hreads
  have hfound := forall₂_of_mapM_eq_ok hfound
  have hhidden := forall₂_of_mapM_eq_ok hhidden
  simp only [List.forall₂_cons, TableKind.topLevel] at hfound hhidden
  obtain ⟨hclass₁, hfunction₁, hconstant₁, hclass₃, hfunction₃, hconstant₃, hfunction₂, -⟩ := hfound
  obtain ⟨hclassHidden, hfunctionHidden, hconstantHidden, -⟩ := hhidden
  have hnone : Symbol.candidates [] = [] := Symbol.candidates_eq_self .nil .nil
  have htwo : Symbol.candidates [all, map] = [map, all] :=
    Symbol.candidates_eq (by decide) (by unfold Symbol.Distinct; decide) (by decide) (by decide)
  have hthree : Symbol.candidates [all, map, zip] = [zip, map, all] :=
    Symbol.candidates_eq (by decide) (by unfold Symbol.Distinct; decide) (by decide) (by decide)
  have hsearch {kind : TableKind} {limit : Nat} (h : (wordReads kind limit).run s'.rows = .ok []) :
      (Index.source s'.rows).search kind "" "" limit = .ok [] :=
    (search_of_wordReads [] h).trans (congrArg Except.ok hnone)
  have hone : (Index.source s'.rows).workspaceSymbols "" 1 = .ok [all] :=
    SymbolSource.workspaceSymbols_of_functions (hsearch hclass₁)
      ((search_of_wordReads [all] hfunction₁).trans
        (congrArg Except.ok Symbol.candidates_singleton)) (hsearch hconstant₁)
      (List.pairwise_singleton _ _) (List.nodup_singleton _)
  have hmany : (Index.source s'.rows).workspaceSymbols "" 3 = .ok [zip, map, all] :=
    SymbolSource.workspaceSymbols_of_functions (hsearch hclass₃)
      ((search_of_wordReads [all, map, zip] hfunction₃).trans
        (congrArg Except.ok hthree)) (hsearch hconstant₃) (by decide) (by decide)
  have htyped : SymbolSource.Typed "" r 0 := by
    refine ⟨by decide, by decide, by decide, ?_⟩
    decide
  have hopened {kind : TableKind} (hkind : lastOpened.shadowed s'.rows kind = .ok 0)
      (h : (wordReads kind 1).run s'.rows = .ok [])
      (hbuffer : openedWords kind = []) :
      (lastOpened.source s'.rows).search kind "" "" 1 = .ok [] := by
    rw [search_lastOpened [] hkind h, hbuffer, hnone]
    exact congrArg (fun l => Except.ok (List.take 1 l)) hnone
  have hlast : (lastOpened.source s'.rows).search .functions "" "" 1 = .ok [map] := by
    have hlayers : lastOpened.layers [map, all] (openedWords .functions) = [map, all] := by
      decide
    rw [search_lastOpened [all, map] hfunctionHidden hfunction₂, htwo, OpenDocuments.merge_eq,
      hlayers, Symbol.candidates_eq_self (by decide) (by decide)]
    rfl
  refine ⟨s', hrun, hone, hmany, ?_, htyped, ?_, ?_⟩
  · exact SymbolSource.workspaceSymbols_of_functions (hopened hclassHidden hclass₁ (by decide))
      hlast (hopened hconstantHidden hconstant₁ (by decide)) (List.pairwise_singleton _ _)
      (List.nodup_singleton _)
  · rw [SymbolSource.completion_of_typed htyped, hone]
  · rw [SymbolSource.completion_of_typed htyped, hmany]

end PhpIndex
