import PhpIndex.Proofs.Index.Search
import PhpIndex.Proofs.Store.Across

/-!
# Lookups across a replacement

A lookup first reads which declarations there are and then each of them by itself, so a document
may be replaced between two of its reads. A lookup by name reads one declaration of each document
and answers as before or as after. One that reads several declarations of the document may answer
some of its old and some of its new version, but nothing that is in neither, and all that is in
both.
Main statements: `lookups_across`, `members_torn`.
-/
namespace PhpIndex

/-- What is read back of the declaration of a name in a document. -/
def recorded (last : String → Option Version) (kind : TableKind) (uri name : String) :
    Option Symbol :=
  ((last uri).bind fun v => v.declared kind name).map Symbol.normal

theorem recorded_eq_some {last : String → Option Version} {kind : TableKind} {uri name : String}
    {t : Symbol} : recorded last kind uri name = some t ↔
      ∃ s, LiveIn last kind uri s ∧ s.indexName = name ∧ t = s.normal := by
  simp only [recorded, Option.map_eq_some_iff, Option.bind_eq_some_iff]
  constructor
  · rintro ⟨s, ⟨v, hv, hs⟩, rfl⟩
    obtain rfl := (Version.declared_eq_some hs).2.2
    exact ⟨s, ⟨v, hv, hs⟩, rfl, rfl⟩
  · rintro ⟨s, ⟨v, hv, hs⟩, rfl, rfl⟩
    exact ⟨s, ⟨v, hv, hs⟩, rfl⟩

theorem mem_recorded {last : String → Option Version} {kind : TableKind} {name : String}
    {uris : List String} (huris : ∀ uri s, LiveIn last kind uri s → s.indexName = name → uri ∈ uris)
    {t : Symbol} : t ∈ (uris.map fun uri => recorded last kind uri name).filterMap id ↔
      ∃ s, Live last kind s ∧ s.indexName = name ∧ t = s.normal := by
  simp only [List.mem_filterMap, List.mem_map, id_eq, exists_eq_right, recorded_eq_some]
  constructor
  · rintro ⟨uri, -, s, hs, hname, rfl⟩
    exact ⟨s, ⟨uri, hs⟩, hname, rfl⟩
  · rintro ⟨s, ⟨uri, hs⟩, hname, rfl⟩
    exact ⟨uri, huris uri s hs hname, s, hs, hname, rfl⟩

/-- The declarations that entries lead to. -/
def hydrate (kind : TableKind) (uri name : ε → String) (entries : List ε) :
    Query (List Symbol) := do
  let found ← Query.forEach
    (fun e => (KindTables.of kind).declarations.get (uri e) (name e)) entries
  pure (Symbol.candidates (found.filterMap id))

theorem reads_declaration (rows : Rows) (kind : TableKind) (uri name : String) :
    ((KindTables.of kind).declarations.get uri name).reads rows = 1 := by
  refine congrArg (· + 1) (?_ : _ = 0)
  cases rows.get? ((KindTables.of kind).declarations.table.key (joinKey [uri, name])) with
  | none => rfl
  | some bytes =>
    exact (Query.reads_map rows (Query.ofFormat (ofRecord bytes)) some).trans
      (Query.reads_ofFormat rows _)

theorem reads_find (rows : Rows) (kind : TableKind) (name : String) :
    ((KindTables.of kind).names.find name).reads rows = 1 :=
  congrArg (· + 1) (Query.reads_ofFormat rows _)

theorem reads_findFrom (rows : Rows) (kind : TableKind) (lead : String) :
    ((KindTables.of kind).names.findFrom lead).reads rows = 1 :=
  congrArg (· + 1) (Query.reads_ofFormat rows _)

theorem reads_search (rows : Rows) (kind : TableKind) (scope keyword : String) (limit : Nat) :
    ((KindTables.of kind).words.search scope keyword limit).reads rows = 1 :=
  congrArg (· + 1) (Query.reads_ofFormat rows _)

/-- A lookup whose first read sees the rows before a change reads the declarations across it. -/
theorem runAcross_lookup {before after : Rows} {kind : TableKind} {q : Query (List ε)}
    {uri name : ε → String} {entries : List ε} (hreads : q.reads before = 1)
    (hq : q.run before = .ok entries) (n : Nat) :
    (q >>= hydrate kind uri name).runAcross before after (n + 1) =
      (hydrate kind uri name entries).runAcross before after n := by
  rw [Query.runAcross_bind_of_le (by omega), hq, hreads]
  rfl

/-- Whether an answer holds all that two others share and nothing that none of them has, and
agrees with both on all documents but one. -/
structure Mixes (uri : String) (a b found : List Symbol) : Prop where
  both : ∀ t ∈ a, t ∈ b → t ∈ found
  one : ∀ t ∈ found, t ∈ a ∨ t ∈ b
  others : ∀ t, t.location.uri ≠ uri → (t ∈ found ↔ t ∈ a) ∧ (t ∈ found ↔ t ∈ b)

theorem Mixes.of_iff {uri : String} {a b found : List Symbol}
    (hboth : ∀ t ∈ a, t ∈ b → t ∈ found) (hone : ∀ t ∈ found, t ∈ a ∨ t ∈ b)
    (hiff : ∀ t, t.location.uri ≠ uri → (t ∈ a ↔ t ∈ b)) : Mixes uri a b found := by
  refine ⟨hboth, hone, fun t ht => ?_⟩
  have hab := hiff t ht
  have hfound : t ∈ found ↔ t ∈ a := by
    refine ⟨fun h => ?_, fun h => hboth t h (hab.1 h)⟩
    rcases hone t h with h | h
    · exact h
    · exact hab.2 h
  exact ⟨hfound, hfound.trans hab⟩

/-- Whether a query of which some reads come before a change answers a mix of its answers before
and after it. -/
def Query.MixesAcross (q : Query (List Symbol)) (uri : String) (before after : Rows) (n : Nat) :
    Prop :=
  ∃ a b found, q.run before = .ok a ∧ q.run after = .ok b ∧
    q.runAcross before after n = .ok found ∧ Mixes uri a b found

section Replacement
variable {before after : Rows} {last : String → Option Version} {v : Version}

theorem recorded_lastAfter_of_ne {kind : TableKind} {uri name : String} (hne : uri ≠ v.uri) :
    recorded ((Operation.replace v).lastAfter last) kind uri name =
      recorded last kind uri name := by
  rw [recorded, recorded, Operation.lastAfter, if_neg hne]

variable (h : Holds before last) (h' : Holds after ((Operation.replace v).lastAfter last))
include h h'

/-- The first `n` declarations are read before the replacement. -/
theorem runAcross_hydrate (kind : TableKind) (uri name : ε → String) {entries : List ε}
    (hnul : ∀ e ∈ entries, NulFree (uri e)) (n : Nat) :
    (hydrate kind uri name entries).runAcross before after n =
      .ok (Symbol.candidates
        (((entries.take n).map (fun e => recorded last kind (uri e) (name e)) ++
          (entries.drop n).map fun e =>
            recorded ((Operation.replace v).lastAfter last) kind (uri e) (name e)).filterMap
              id)) := by
  rw [hydrate, Query.runAcross_map, Query.runAcross_forEach
    (fun e _ => reads_declaration before kind (uri e) (name e))
    (fun e he => h.run_declaration (hnul e he) kind (name e))
    (fun e he => h'.run_declaration (hnul e he) kind (name e)) n]
  rfl

variable (hlocated : ∀ uri w, last uri = some w → w.Located) (hv : v.Located)
include hlocated hv

/-- Where entries lead to the symbols of the documents, as they were, the answer is a mix. -/
theorem mixes_hydrate {kind : TableKind} {wanted : Symbol → Prop}
    (hsame : ∀ s t : Symbol, s.Separable → t.Separable → s.table? = some kind →
      t.table? = some kind → s.indexName = t.indexName → wanted s → wanted t)
    {entries : List ε} (uri name : ε → String)
    (hlive : ∀ e ∈ entries, ∃ s, LiveIn last kind (uri e) s ∧ s.indexName = name e ∧ wanted s)
    (hall : ∀ u s, LiveIn last kind u s → wanted s →
      ∃ e ∈ entries, uri e = u ∧ name e = s.indexName) {a b : List Symbol}
    (ha : Lists a fun s => Live last kind s ∧ wanted s)
    (hb : Lists b fun s => Live ((Operation.replace v).lastAfter last) kind s ∧ wanted s)
    (n : Nat) : ∃ found, (hydrate kind uri name entries).runAcross before after n = .ok found ∧
      Mixes v.uri a b found := by
  have hlocated' := forall_lastAfter hlocated hv
  have hnul : ∀ e ∈ entries, NulFree (uri e) := by
    intro e he
    obtain ⟨s, hs, -⟩ := hlive e he
    exact hs.nulFree h
  refine ⟨_, runAcross_hydrate h h' kind uri name hnul n, ?_⟩
  refine .of_iff (fun t hta htb => ?both) (fun t ht => ?one)
    fun t ht => h.mem_iff_of_uri_ne h' hlocated hv ha hb ht
  case both =>
    obtain ⟨s, ⟨u, hs⟩, hsw, rfl⟩ := (h.mem_lists ha).1 hta
    obtain ⟨s', ⟨u', hs'⟩, -, hnormal⟩ := (h'.mem_lists hb).1 htb
    -- Both are symbols of the document that their location names, under one name.
    obtain ⟨hlocation, huri⟩ := hs.location_normal h hlocated
    obtain ⟨hlocation', huri'⟩ := hs'.location_normal h' hlocated'
    have hu : u' = u := by
      rw [← huri', ← hlocation', ← hnormal, hlocation, huri]
    have hname : s'.indexName = s.indexName := by
      rw [← Symbol.indexName_normal, ← hnormal, Symbol.indexName_normal]
    subst hu
    obtain ⟨e, he, rfl, hename⟩ := hall u' s hs hsw
    rw [Symbol.mem_candidates, List.mem_filterMap]
    refine ⟨some s.normal, ?_, rfl⟩
    rw [← List.take_append_drop n entries, List.mem_append] at he
    rw [List.mem_append, List.mem_map, List.mem_map]
    rcases he with he | he
    · exact .inl ⟨e, he, recorded_eq_some.2 ⟨s, hs, hename.symm, rfl⟩⟩
    · exact .inr ⟨e, he, recorded_eq_some.2 ⟨s', hs', hname.trans hename.symm, hnormal⟩⟩
  case one =>
    rw [Symbol.mem_candidates, List.mem_filterMap] at ht
    obtain ⟨t?, ht?, rfl⟩ := ht
    rw [List.mem_append, List.mem_map, List.mem_map] at ht?
    rcases ht? with ⟨e, he, hrecorded⟩ | ⟨e, he, hrecorded⟩
    · obtain ⟨s, hs, hname, rfl⟩ := recorded_eq_some.1 hrecorded
      obtain ⟨s₀, hs₀, hname₀, hsw⟩ := hlive e (List.mem_of_mem_take he)
      obtain rfl := hs.unique hs₀ (hname.trans hname₀.symm)
      exact .inl ((h.mem_lists ha).2 ⟨s, ⟨_, hs⟩, hsw, rfl⟩)
    · obtain ⟨s, hs, hname, rfl⟩ := recorded_eq_some.1 hrecorded
      obtain ⟨s₀, hs₀, hname₀, hsw⟩ := hlive e (List.mem_of_mem_drop he)
      have hsw' := hsame s₀ s (hs₀.separable h) (hs.separable h') hs₀.table hs.table
        (hname₀.trans hname.symm) hsw
      exact .inr ((h'.mem_lists hb).2 ⟨s, ⟨_, hs⟩, hsw', rfl⟩)

theorem membersOf_mixes {kind : TableKind} (hkind : kind.isMember) {owner : String}
    (hnul : NulFree owner) (hat : AtFree owner) (n : Nat) :
    (Index.membersOf kind owner).MixesAcross v.uri before after n := by
  obtain ⟨a, hrun, ha⟩ := h.membersOf_exact hlocated hkind hnul hat
  obtain ⟨b, hrun', hb⟩ := h'.membersOf_exact (forall_lastAfter hlocated hv) hkind hnul hat
  cases n with
  | zero =>
    refine ⟨a, b, b, hrun, hrun', (Query.runAcross_zero _).trans hrun', ?_⟩
    exact .of_iff (fun t _ ht => ht) (fun t ht => .inr ht)
      fun t ht => h.mem_iff_of_uri_ne h' hlocated hv ha hb ht
  | succ n =>
    obtain ⟨names, hnames, hmem⟩ := h.run_names_findFrom hkind hnul hat
    have hsame : ∀ s t : Symbol, s.Separable → t.Separable → s.table? = some kind →
        t.table? = some kind → s.indexName = t.indexName → s.scope? = some owner →
          t.scope? = some owner := fun s t hs ht hskind htkind hname hscope =>
      (hs.indexName_inj ht hskind htkind hname).1.symm.trans hscope
    obtain ⟨found, hfound, hmixes⟩ := mixes_hydrate h h' hlocated hv hsame Prod.snd Prod.fst
      (fun (name, uri) hname => by
        obtain ⟨s, hs, hindex, hscope⟩ := (hmem name uri).1 hname
        exact ⟨s, hs, hindex, hscope⟩)
      (fun uri s hs hscope => ⟨(s.indexName, uri), (hmem _ _).2 ⟨s, hs, rfl, hscope⟩, rfl, rfl⟩)
      ha hb n
    refine ⟨a, b, found, hrun, hrun', ?_, hmixes⟩
    exact (runAcross_lookup (reads_findFrom before kind _) hnames n).trans hfound

theorem search_mixes
    (hnames : ∀ uri w, last uri = some w → ∀ s ∈ w.symbols, FitsText s.indexName)
    (hvnames : ∀ s ∈ v.symbols, FitsText s.indexName) (kind : TableKind) {scope keyword : String}
    (hscope : AtFree scope) (hkeyword : NulFree keyword) {limit : Nat}
    (hlimit : before.size ≤ limit) (hlimit' : after.size ≤ limit) (n : Nat) :
    (Index.search kind scope keyword limit).MixesAcross v.uri before after n := by
  obtain ⟨a, hrun, ha, -⟩ := h.search_exact hlocated hnames kind hscope hkeyword hlimit
  obtain ⟨b, hrun', hb, -⟩ := h'.search_exact (forall_lastAfter hlocated hv)
    (forall_lastAfter hnames hvnames) kind hscope hkeyword hlimit'
  cases n with
  | zero =>
    refine ⟨a, b, b, hrun, hrun', (Query.runAcross_zero _).trans hrun', ?_⟩
    exact .of_iff (fun t _ ht => ht) (fun t ht => .inr ht)
      fun t ht => h.mem_iff_of_uri_ne h' hlocated hv ha hb ht
  | succ n =>
    obtain ⟨entries, hentries, hmem⟩ := h.run_words_search hnames kind hscope hkeyword hlimit
    have hsame : ∀ s t : Symbol, s.Separable → t.Separable → s.table? = some kind →
        t.table? = some kind → s.indexName = t.indexName → s.Matches scope keyword →
          t.Matches scope keyword := by
      intro s t hs ht hskind htkind hname hmatches
      obtain ⟨hscopes, hnames⟩ := hs.indexName_inj ht hskind htkind hname
      rwa [Symbol.Matches, ← hscopes, ← Symbol.completionWord_eq hscopes hnames]
    obtain ⟨found, hfound, hmixes⟩ := mixes_hydrate h h' hlocated hv hsame CompletionEntry.uri
      CompletionEntry.name (fun e he => (hmem e).1 he)
      (fun uri s hs hmatches => ⟨⟨uri, s.indexName⟩, (hmem _).2 ⟨s, hs, rfl, hmatches⟩, rfl, rfl⟩)
      ha hb n
    refine ⟨a, b, found, hrun, hrun', ?_, hmixes⟩
    exact (runAcross_lookup (reads_search before kind scope keyword limit) hentries n).trans hfound

/-- A lookup by name reads one declaration of the replaced document, so it answers as before the
replacement or as after it. -/
theorem find_whole (kind : TableKind) (name : String) (n : Nat) :
    (Index.find kind name).runAcross before after n = (Index.find kind name).run before ∨
      (Index.find kind name).runAcross before after n = (Index.find kind name).run after := by
  cases n with
  | zero => exact .inr (Query.runAcross_zero _)
  | succ n =>
    obtain ⟨uris, huris, hnodup, hmem⟩ := h.run_names_find kind name
    have hnul : ∀ uri ∈ uris, NulFree uri := by
      intro uri hmemuri
      obtain ⟨s, hs, -⟩ := (hmem uri).1 hmemuri
      exact hs.nulFree h
    have hacross := runAcross_hydrate h h' kind (fun uri => uri) (fun _ => name) hnul n
    rw [show (Index.find kind name).runAcross before after (n + 1) = _ from
      runAcross_lookup (reads_find before kind name) huris n, hacross]
    by_cases hreplaced : v.uri ∈ uris.drop n
    · -- Of the replaced document the new declaration is read.
      have hnew : (uris.take n).map (fun uri => recorded last kind uri name) =
          (uris.take n).map fun uri =>
            recorded ((Operation.replace v).lastAfter last) kind uri name := by
        refine List.map_congr_left fun uri huri => (recorded_lastAfter_of_ne ?_).symm
        rintro rfl
        exact List.disjoint_take_drop hnodup (Nat.le_refl n) huri hreplaced
      rw [hnew, ← List.map_append, List.take_append_drop]
      refine .inr (h'.run_find_eq (forall_lastAfter hlocated hv) kind name fun t => ?_).symm
      refine mem_recorded fun uri s hs hname => ?_
      by_cases huri : uri = v.uri
      · exact huri ▸ List.mem_of_mem_drop hreplaced
      · exact (hmem uri).2 ⟨s, (liveIn_lastAfter_iff huri).1 hs, hname⟩
    · have hold : (uris.drop n).map (fun uri =>
            recorded ((Operation.replace v).lastAfter last) kind uri name) =
          (uris.drop n).map fun uri => recorded last kind uri name := by
        refine List.map_congr_left fun uri huri => recorded_lastAfter_of_ne ?_
        rintro rfl
        exact hreplaced huri
      rw [hold, ← List.map_append, List.take_append_drop]
      refine .inl (h.run_find_eq hlocated kind name fun t => ?_).symm
      exact mem_recorded fun uri s hs hname => (hmem uri).2 ⟨s, hs, hname⟩

end Replacement

/-- A replacement between two reads of a lookup. A name finds what it found before or what it
finds after; the members of a class and the symbols of a word may be found of both versions. -/
theorem lookups_across {ops : List Operation} (hops : ∀ op ∈ ops, op.Valid)
    (hlocated : ∀ op ∈ ops, op.Located) (hnames : ∀ op ∈ ops, op.NamesFit) {v : Version}
    (hv : v.Valid) (hvlocated : v.Located) (hvnames : ∀ s ∈ v.symbols, FitsText s.indexName) :
    ∃ s s', Store.volatile.runAll ops = .ok s ∧ (Operation.replace v).run s = .ok s' ∧ ∀ n,
      (∀ kind name,
        (Index.find kind name).runAcross s.rows s'.rows n = (Index.find kind name).run s.rows ∨
        (Index.find kind name).runAcross s.rows s'.rows n = (Index.find kind name).run s'.rows) ∧
      (∀ kind owner, kind.isMember → NulFree owner → AtFree owner →
        (Index.membersOf kind owner).MixesAcross v.uri s.rows s'.rows n) ∧
      ∀ kind scope keyword limit, AtFree scope → NulFree keyword → s.rows.size ≤ limit →
        s'.rows.size ≤ limit →
          (Index.search kind scope keyword limit).MixesAcross v.uri s.rows s'.rows n := by
  obtain ⟨s, hrun, h⟩ := Holds.runAll (s := .volatile) Holds.empty hops
  obtain ⟨s', hreplace, h'⟩ := h.run (show (Operation.replace v).Valid from hv)
  have hlast : ∀ uri w, lastVersion ops uri = some w → w.Located := fun _ _ hw =>
    located_of_lastVersion hlocated hw
  have hlastNames : ∀ uri w, lastVersion ops uri = some w → ∀ t ∈ w.symbols, FitsText t.indexName :=
    fun _ _ hw => hnames _ (replace_mem_of_lastVersion hw)
  refine ⟨s, s', hrun, hreplace, fun n => ⟨fun kind name => ?_, fun kind owner hkind hnul hat => ?_,
    fun kind scope keyword limit hscope hkeyword hlimit hlimit' => ?_⟩⟩
  · exact find_whole h h' hlast hvlocated kind name n
  · exact membersOf_mixes h h' hlast hvlocated hkind hnul hat n
  · exact search_mixes h h' hlast hvlocated hlastNames hvnames kind hscope hkeyword hlimit hlimit' n

/-- A class with two methods, at places that tell its versions apart. -/
def boxMethod (name : String) (start : UInt32) : Symbol :=
  .method ⟨name, "Box", .of "a.php" ⟨start, start + 9⟩, {}, {}, .empty, none⟩

def boxVersion (shift : UInt32) : Version :=
  .ofSymbols "a.php" [boxMethod "get" shift, boxMethod "set" (shift + 10)]

theorem lookups_across_box :
    let ops := [.replace (boxVersion 0), .remove "b.php"]
    (∀ op ∈ ops, op.Valid ∧ op.Located ∧ op.NamesFit) ∧
      ∃ s s', Store.volatile.runAll ops = .ok s ∧
        (Operation.replace (boxVersion 5)).run s = .ok s' ∧ ∀ n,
          ((Index.find .methods "Box@get").runAcross s.rows s'.rows n =
              (Index.find .methods "Box@get").run s.rows ∨
            (Index.find .methods "Box@get").runAcross s.rows s'.rows n =
              (Index.find .methods "Box@get").run s'.rows) ∧
          (Index.membersOf .methods "Box").MixesAcross "a.php" s.rows s'.rows n := by
  intro ops
  have hops : ∀ op ∈ ops, op.Valid ∧ op.Located ∧ op.NamesFit := by decide
  obtain ⟨s, s', hrun, hreplace, h⟩ := lookups_across (fun op hop => (hops op hop).1)
    (fun op hop => (hops op hop).2.1) (fun op hop => (hops op hop).2.2)
    (v := boxVersion 5) (by decide) (by decide) (by decide)
  exact ⟨hops, s, s', hrun, hreplace, fun n => ⟨(h n).1 .methods "Box@get",
    (h n).2.1 .methods "Box" (by decide) (by decide) (by decide)⟩⟩

/-- Which declarations a lookup of members reads, before they are sorted. -/
def boxReads : Query (List (Option Symbol)) :=
  (KindTables.of .methods).names.findFrom (memberKey "Box" "") >>= Query.forEach fun (name, uri) =>
    (KindTables.of .methods).declarations.get uri name

theorem runAcross_box (before after : Rows) (n : Nat) :
    (Index.membersOf .methods "Box").runAcross before after n =
      (boxReads.runAcross before after n).map fun found =>
        Symbol.candidates (found.filterMap id) := by
  rw [← Query.runAcross_map, boxReads, Query.bind_assoc]
  rfl

/-- What is answered on the rows before and after the class is replaced. -/
def acrossBox (read : Rows → Rows → Except StoreError α) : Except StoreError α := do
  let s ← Store.volatile.runAll [.replace (boxVersion 0)]
  let s' ← (Operation.replace (boxVersion 5)).run s
  read s.rows s'.rows

/-- Between the reads of two methods the class is replaced: one method is found of the old
version, the other of the new one. -/
theorem members_torn :
    ((boxVersion 0).Valid ∧ (boxVersion 0).Located ∧ (boxVersion 5).Valid ∧
      (boxVersion 5).Located) ∧
    ∃ s s', Store.volatile.runAll [.replace (boxVersion 0)] = .ok s ∧
      (Operation.replace (boxVersion 5)).run s = .ok s' ∧
      (Index.membersOf .methods "Box").runAcross s.rows s'.rows 2 ≠
        (Index.membersOf .methods "Box").run s.rows ∧
      (Index.membersOf .methods "Box").runAcross s.rows s'.rows 2 ≠
        (Index.membersOf .methods "Box").run s'.rows := by
  have hold : acrossBox (fun before _ => boxReads.run before) =
      .ok [some (boxMethod "get" 0).normal, some (boxMethod "set" 10).normal] := by
    decide +kernel
  have htorn : acrossBox (fun before after => boxReads.runAcross before after 2) =
      .ok [some (boxMethod "get" 0).normal, some (boxMethod "set" 15).normal] := by
    decide +kernel
  have hnew : acrossBox (fun _ after => boxReads.run after) =
      .ok [some (boxMethod "get" 5).normal, some (boxMethod "set" 15).normal] := by
    decide +kernel
  refine ⟨by decide, ?_⟩
  cases hs : Store.volatile.runAll [.replace (boxVersion 0)] with
  | error e =>
    rw [acrossBox, hs] at hold
    cases hold
  | ok s =>
    cases hs' : (Operation.replace (boxVersion 5)).run s with
    | error e =>
      simp only [acrossBox, hs, hs', bind, Except.bind] at hold
      cases hold
    | ok s' =>
      simp only [acrossBox, hs, hs', bind, Except.bind] at hold htorn hnew
      have hrun (rows : Rows) : (Index.membersOf .methods "Box").run rows =
          (boxReads.run rows).map fun found => Symbol.candidates (found.filterMap id) :=
        run_candidates rows _ _
      -- The method that is told apart is in the one answer and not in the other.
      have hne {l l' : List (Option Symbol)} (t : Symbol) (ht : some t ∈ l) (ht' : some t ∉ l') :
          Symbol.candidates (l.filterMap id) ≠ Symbol.candidates (l'.filterMap id) := by
        intro heq
        have hmem : t ∈ Symbol.candidates (l.filterMap id) :=
          Symbol.mem_candidates.2 (List.mem_filterMap.2 ⟨_, ht, rfl⟩)
        rw [heq, Symbol.mem_candidates, List.mem_filterMap] at hmem
        obtain ⟨_, hmem, rfl⟩ := hmem
        exact ht' hmem
      refine ⟨s, s', rfl, hs', ?_, ?_⟩
      · rw [runAcross_box, hrun, htorn, hold]
        exact fun heq => hne (boxMethod "set" 15).normal (by decide) (by decide)
          (Except.ok.inj heq)
      · rw [runAcross_box, hrun, htorn, hnew]
        exact fun heq => hne (boxMethod "get" 0).normal (by decide) (by decide)
          (Except.ok.inj heq)

end PhpIndex
