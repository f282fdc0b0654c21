import PhpIndex.Proofs.Index.History
import PhpIndex.Proofs.Symbol.Candidates
import Mathlib.Data.List.Perm.Subperm

/-!
# Lookup by name

A name row leads to the declaration row of its document and name, and both are there just if the
last version of the document declares the name. What is found for a name, or for the members of
a class, so is what the last versions hold.
Main statement: `lookups_exact`.
-/
namespace PhpIndex

/-- Whether the symbol is the last one of its name in its table in the last version of the
document. -/
def LiveIn (last : String → Option Version) (kind : TableKind) (uri : String) (s : Symbol) :
    Prop := ∃ v, last uri = some v ∧ v.declared kind s.indexName = some s

def Live (last : String → Option Version) (kind : TableKind) (s : Symbol) : Prop :=
  ∃ uri, LiveIn last kind uri s

/-- The list holds the wanted symbols as they are read back, each once and in order of listing. -/
structure Lists (found : List Symbol) (wanted : Symbol → Prop) : Prop where
  mem : ∀ t, t ∈ found ↔ ∃ s, wanted s ∧ ofRecord (toRecord s) = .ok t
  nodup : found.Nodup
  ordered : found.Pairwise (fun a b => a.listedBefore b)

/-- Whether wanted symbols of a kind that share a name are stored under one name as well. -/
def ApartByName (kind : TableKind) (wanted : Symbol → Prop) : Prop :=
  ∀ s t, wanted s → wanted t → s.Separable → t.Separable → s.table? = some kind →
    t.table? = some kind → s.name = t.name → s.indexName = t.indexName

theorem apartByName_indexName (kind : TableKind) (name : String) :
    ApartByName kind fun s => s.indexName = name :=
  fun _ _ hs ht _ _ _ _ _ => hs.trans ht.symm

theorem apartByName_scope (kind : TableKind) (owner : String) :
    ApartByName kind fun s => s.scope? = some owner := by
  intro s t hs ht _ _ _ _ hname
  rw [Symbol.indexName, Symbol.indexName, hs, ht, hname]

namespace LiveIn
variable {rows : Rows} {last : String → Option Version} {kind : TableKind} {uri : String}
  {s : Symbol}

theorem table (h : LiveIn last kind uri s) : s.table? = some kind := by
  obtain ⟨v, -, hs⟩ := h
  exact (Version.declared_eq_some hs).2.1

theorem nulFree (h : LiveIn last kind uri s) (hholds : Holds rows last) : NulFree uri := by
  obtain ⟨v, hv, -⟩ := h
  exact hholds.uri uri v hv ▸ (hholds.valid uri v hv).uri

theorem separable (h : LiveIn last kind uri s) (hholds : Holds rows last) : s.Separable := by
  obtain ⟨v, hv, hs⟩ := h
  exact (hholds.valid uri v hv).separable s (Version.declared_eq_some hs).1

theorem readBack (h : LiveIn last kind uri s) (hholds : Holds rows last) :
    ofRecord (toRecord s) = .ok s.normal := by
  obtain ⟨v, hv, hs⟩ := h
  exact ofRecord_symbol ((hholds.valid uri v hv).fits s (Version.declared_eq_some hs).1)

/-- A document has one symbol of a name. -/
theorem unique {t : Symbol} (hs : LiveIn last kind uri s) (ht : LiveIn last kind uri t)
    (h : s.indexName = t.indexName) : s = t := by
  obtain ⟨v, hv, hs⟩ := hs
  obtain ⟨w, hw, ht⟩ := ht
  obtain rfl := Option.some.inj (hv.symm.trans hw)
  exact Option.some.inj ((h ▸ hs).symm.trans ht)

theorem location_normal (h : LiveIn last kind uri s) (hholds : Holds rows last)
    (hlocated : ∀ uri v, last uri = some v → v.Located) :
    s.normal.location = s.location ∧ s.location.uri = uri := by
  obtain ⟨v, hv, hs⟩ := h
  obtain ⟨hlocation, huri⟩ := (hlocated uri v hv).location_normal (Version.declared_eq_some hs).1
  exact ⟨hlocation, huri.trans (hholds.uri uri v hv)⟩

end LiveIn

namespace Holds
variable {rows : Rows} {last : String → Option Version}

/-- The declaration of a name in a document is read back. -/
theorem run_declaration (h : Holds rows last) {uri : String} (huri : NulFree uri)
    (kind : TableKind) (name : String) :
    ((KindTables.of kind).declarations.get uri name).run rows =
      .ok (((last uri).bind fun v => v.declared kind name).map Symbol.normal) := by
  have hkey : KeyOf uri ((IndexPart.declarations kind).table.key (joinKey [uri, name])) :=
    ⟨.declarations kind, _, rfl, name, rfl⟩
  have hget : rows.get? ((IndexPart.declarations kind).table.key (joinKey [uri, name])) =
      ((last uri).bind fun v => v.declared kind name).map toRecord := by
    refine Option.ext fun value => ?_
    rw [h.get?_of_keyOf huri hkey]
    cases hv : last uri with
    | none => simp
    | some v =>
      obtain rfl := h.uri uri v hv
      simp only [Option.some.injEq, exists_eq_left', Version.get?_rows_declaration,
        Option.bind_some]
  refine (Query.run_bind_eq_ok rows (Query.run_get rows _ _)).trans ?_
  rw [show (KindTables.of kind).declarations.table = (IndexPart.declarations kind).table from rfl,
    hget]
  cases hs : (last uri).bind fun v => v.declared kind name with
  | none => rfl
  | some s =>
    obtain ⟨v, hv, hs⟩ := Option.bind_eq_some_iff.1 hs
    have hread := ofRecord_symbol ((h.valid uri v hv).fits s (Version.declared_eq_some hs).1)
    simp only [Option.map_some, hread]
    rfl

/-- Where entries lead to the symbols of the documents, these are the candidates. -/
theorem run_hydrate (h : Holds rows last) (kind : TableKind) {entries : List ε}
    (uri name : ε → String) {wanted : Symbol → Prop}
    (hlive : ∀ e ∈ entries, ∃ s, LiveIn last kind (uri e) s ∧ s.indexName = name e ∧ wanted s)
    (hwanted : ∀ u s, LiveIn last kind u s → wanted s →
      ∃ e ∈ entries, uri e = u ∧ name e = s.indexName) :
    ∃ found, (do
        let found ← Query.forEach
          (fun e => (KindTables.of kind).declarations.get (uri e) (name e)) entries
        pure (Symbol.candidates (found.filterMap id)) : Query (List Symbol)).run rows =
          .ok (Symbol.candidates found) ∧
      ∀ t, t ∈ found ↔ ∃ s, Live last kind s ∧ wanted s ∧ t = s.normal := by
  have hgets : ∀ e ∈ entries, ((KindTables.of kind).declarations.get (uri e) (name e)).run rows =
      .ok (((last (uri e)).bind fun v => v.declared kind (name e)).map Symbol.normal) := by
    intro e he
    obtain ⟨s, hs, -⟩ := hlive e he
    exact h.run_declaration (hs.nulFree h) kind (name e)
  refine ⟨_, Query.run_bind_eq_ok rows (Query.run_forEach_eq_map rows hgets), fun t => ?_⟩
  simp only [List.mem_filterMap, List.mem_map, id_eq, exists_eq_right]
  constructor
  · rintro ⟨e, he, ht⟩
    obtain ⟨s, hs, hname, hsw⟩ := hlive e he
    obtain ⟨v, hv, hdeclared⟩ := id hs
    rw [← hname, hv, Option.bind_some, hdeclared] at ht
    exact ⟨s, ⟨uri e, hs⟩, hsw, (Option.some.inj ht).symm⟩
  · rintro ⟨s, ⟨u, hs⟩, hsw, rfl⟩
    obtain ⟨e, he, rfl, hname⟩ := hwanted u s hs hsw
    obtain ⟨v, hv, hdeclared⟩ := hs
    refine ⟨e, he, ?_⟩
    rw [hname, hv, Option.bind_some, hdeclared]
    rfl

/-- The rows that a scan of names visits. -/
theorem mem_scan_names (h : Holds rows last) (kind : TableKind) {lead : Bytes} {row : Row} :
    row ∈ rows.scan ((IndexPart.names kind).table.key lead) ↔
      ∃ uri s, LiveIn last kind uri s ∧ lead <+: joinKey [s.indexName, uri] ∧
        row = ((IndexPart.names kind).table.key (joinKey [s.indexName, uri]),
          Bytes.ofText uri) := by
  obtain ⟨key, value⟩ := row
  rw [IndexPart.mem_scan]
  constructor
  · rintro ⟨k, hk, rfl, hget⟩
    obtain ⟨v, hv, s, hs, hkind, rfl, rfl⟩ := h.exists_enters hget
    obtain ⟨t, ht⟩ := Version.exists_declared hs hkind
    have hname := (Version.declared_eq_some ht).2.2
    rw [← hname] at hk ht ⊢
    exact ⟨v.uri, t, ⟨v, hv, ht⟩, hk, rfl⟩
  · rintro ⟨uri, s, ⟨v, hv, hs⟩, hlead, heq⟩
    obtain ⟨rfl, rfl⟩ := Prod.mk.inj heq
    obtain rfl := h.uri uri v hv
    obtain ⟨hmem, hkind, -⟩ := Version.declared_eq_some hs
    refine ⟨_, hlead, rfl, h.get?_of_enters (p := .names kind) hv ⟨s, hmem, hkind, rfl, rfl⟩ ?_⟩
    rintro value ⟨-, -, -, -, rfl⟩
    rfl

/-- Live symbols that differ are told apart by their documents and names. -/
theorem distinct (h : Holds rows last) (hlocated : ∀ uri v, last uri = some v → v.Located)
    {kind : TableKind} {wanted : Symbol → Prop} {found : List Symbol}
    (hsame : ApartByName kind wanted)
    (hmem : ∀ t, t ∈ found ↔ ∃ s, Live last kind s ∧ wanted s ∧ t = s.normal) :
    Symbol.Distinct found := by
  intro a ha b hb huri _ hname
  obtain ⟨s, ⟨u, hs⟩, hsw, rfl⟩ := (hmem a).1 ha
  obtain ⟨t, ⟨w, ht⟩, htw, rfl⟩ := (hmem b).1 hb
  obtain ⟨hsl, hsu⟩ := hs.location_normal h hlocated
  obtain ⟨htl, htu⟩ := ht.location_normal h hlocated
  rw [hsl, htl, hsu, htu] at huri
  subst huri
  rw [Symbol.name_normal, Symbol.name_normal] at hname
  have hindex := hsame s t hsw htw (hs.separable h) (ht.separable h) hs.table ht.table hname
  rw [hs.unique ht hindex]

theorem lists_candidates (h : Holds rows last) (hlocated : ∀ uri v, last uri = some v → v.Located)
    {kind : TableKind} {wanted : Symbol → Prop} {found : List Symbol}
    (hsame : ApartByName kind wanted)
    (hmem : ∀ t, t ∈ found ↔ ∃ s, Live last kind s ∧ wanted s ∧ t = s.normal) :
    Lists (Symbol.candidates found) fun s => Live last kind s ∧ wanted s := by
  constructor
  case mem =>
    intro t
    rw [Symbol.mem_candidates, hmem]
    refine exists_congr fun s => ⟨fun ⟨⟨u, hs⟩, hsw, ht⟩ => ?_, fun ⟨⟨⟨u, hs⟩, hsw⟩, ht⟩ => ?_⟩
    · exact ⟨⟨⟨u, hs⟩, hsw⟩, ht ▸ hs.readBack h⟩
    · rw [hs.readBack h, Except.ok.injEq] at ht
      exact ⟨⟨u, hs⟩, hsw, ht.symm⟩
  case nodup => exact Symbol.nodup_candidates (h.distinct hlocated hsame hmem)
  case ordered => exact Symbol.pairwise_candidates found

/-- What is listed of live symbols is their normal forms. -/
theorem mem_lists (h : Holds rows last) {kind : TableKind} {wanted : Symbol → Prop}
    {found : List Symbol} (hfound : Lists found fun s => Live last kind s ∧ wanted s)
    {t : Symbol} : t ∈ found ↔ ∃ s, Live last kind s ∧ wanted s ∧ t = s.normal := by
  rw [hfound.mem]
  refine exists_congr fun s => ⟨fun ⟨⟨⟨u, hs⟩, hsw⟩, ht⟩ => ?_, fun ⟨⟨u, hs⟩, hsw, ht⟩ => ?_⟩
  · rw [hs.readBack h, Except.ok.injEq] at ht
    exact ⟨⟨u, hs⟩, hsw, ht.symm⟩
  · exact ⟨⟨⟨u, hs⟩, hsw⟩, ht ▸ hs.readBack h⟩

/-- There is one list of the wanted symbols. -/
theorem lists_unique (h : Holds rows last)
    (hlocated : ∀ uri v, last uri = some v → v.Located) {kind : TableKind}
    {wanted : Symbol → Prop} (hsame : ApartByName kind wanted) {a b : List Symbol}
    (ha : Lists a fun s => Live last kind s ∧ wanted s)
    (hb : Lists b fun s => Live last kind s ∧ wanted s) : a = b :=
  Symbol.eq_of_ordered (h.distinct hlocated hsame fun _ => h.mem_lists ha) ha.ordered hb.ordered
    ha.nodup hb.nodup fun t => (ha.mem t).trans (hb.mem t).symm

/-- What is listed was read from the declaration row of its document and name. -/
theorem liveIn_of_mem_lists (h : Holds rows last)
    (hlocated : ∀ uri v, last uri = some v → v.Located) {kind : TableKind}
    {wanted : Symbol → Prop} {found : List Symbol}
    (hfound : Lists found fun s => Live last kind s ∧ wanted s) {t : Symbol} (ht : t ∈ found) :
    ∃ s, LiveIn last kind t.location.uri s ∧ t = s.normal := by
  obtain ⟨s, ⟨uri, hs⟩, -, rfl⟩ := (h.mem_lists hfound).1 ht
  obtain ⟨hlocation, huri⟩ := hs.location_normal h hlocated
  exact ⟨s, by rwa [hlocation, huri], rfl⟩

/-- Each listed symbol has a declaration row of its own. -/
theorem length_lists_le (h : Holds rows last)
    (hlocated : ∀ uri v, last uri = some v → v.Located) {kind : TableKind}
    {wanted : Symbol → Prop} {found : List Symbol}
    (hfound : Lists found fun s => Live last kind s ∧ wanted s) : found.length ≤ rows.size := by
  have hlive {t : Symbol} (ht : t ∈ found) := h.liveIn_of_mem_lists hlocated hfound ht
  have hkeys : (found.map fun t =>
      (IndexPart.declarations kind).table.key (joinKey [t.location.uri, t.indexName])).Nodup := by
    refine hfound.nodup.map_on fun a ha b hb hkey => ?_
    obtain ⟨s, hs, hsnormal⟩ := hlive ha
    obtain ⟨t, ht, htnormal⟩ := hlive hb
    have hjoin := (IndexPart.key_inj hkey).2
    rw [joinKey_pair, joinKey_pair] at hjoin
    obtain ⟨huri, hname⟩ := cut_separator_eq (Bytes.zero_not_mem (hs.nulFree h))
      (Bytes.zero_not_mem (ht.nulFree h)) hjoin
    rw [← Bytes.ofText_inj huri] at ht
    have hindex : s.indexName = t.indexName := by
      have hindex := Bytes.ofText_inj hname
      rwa [hsnormal, htnormal, Symbol.indexName_normal, Symbol.indexName_normal] at hindex
    rw [hsnormal, htnormal, hs.unique ht hindex]
  suffices hsubset : _ ⊆ rows.keys by
    have hle := (List.subperm_of_subset hkeys hsubset).length_le
    rwa [List.length_map, OrderedMap.keys, List.length_map] at hle
  intro k hk
  obtain ⟨t, ht, rfl⟩ := List.mem_map.1 hk
  obtain ⟨s, ⟨v, hv, hs⟩, hnormal⟩ := hlive ht
  refine OrderedMap.mem_keys.2 ⟨toRecord s, (OrderedMap.get?_eq_some_iff _ _ _).1 ?_⟩
  refine (h.rows _ _).2 ⟨_, v, hv, ?_⟩
  rw [← h.uri _ v hv, Version.get?_rows_declaration, hnormal, Symbol.indexName_normal, hs]
  rfl

theorem readText_ofText (s : String) : NameIndex.readText (Bytes.ofText s) = .ok s := by
  rw [NameIndex.readText, Bytes.toText?_ofText]

/-- The rows that a search for one name visits. -/
theorem mem_scan_name (h : Holds rows last) (kind : TableKind) (name : String) {row : Row} :
    row ∈ rows.scan ((IndexPart.names kind).table.key (joinKey [name, ""])) ↔
      ∃ uri s, LiveIn last kind uri s ∧ s.indexName = name ∧
        row = ((IndexPart.names kind).table.key (joinKey [name, uri]), Bytes.ofText uri) := by
  rw [h.mem_scan_names]
  refine exists_congr fun uri => exists_congr fun s => and_congr_right fun hs => ?_
  constructor
  · rintro ⟨hbegins, rfl⟩
    rw [joinKey_pair, joinKey_pair] at hbegins
    have heq := eq_of_last_separator (Bytes.zero_not_mem (hs.separable h).indexName)
      (Bytes.zero_not_mem (hs.nulFree h)) hbegins
    obtain rfl := Bytes.ofText_inj heq
    exact ⟨rfl, rfl⟩
  · rintro ⟨rfl, rfl⟩
    refine ⟨?_, rfl⟩
    rw [joinKey_pair, joinKey_pair]
    exact ⟨Bytes.ofText uri, by simp⟩

/-- The documents found for a name are those that declare it, each once. -/
theorem run_names_find (h : Holds rows last) (kind : TableKind) (name : String) :
    ∃ uris, ((KindTables.of kind).names.find name).run rows = .ok uris ∧ uris.Nodup ∧
      ∀ uri, uri ∈ uris ↔ ∃ s, LiveIn last kind uri s ∧ s.indexName = name := by
  have hrow {row : Row} : row ∈ _ ↔ _ := h.mem_scan_name kind name
  obtain ⟨uris, huris, hall⟩ := mapM_eq_ok (f := fun row : Row => NameIndex.readText row.2)
    (l := rows.scan ((IndexPart.names kind).table.key (joinKey [name, ""]))) (by
      intro row hmem
      obtain ⟨uri, s, -, -, rfl⟩ := hrow.1 hmem
      exact ⟨uri, readText_ofText uri⟩)
  refine ⟨uris, ?_, ?_, fun uri => ⟨fun hmem => ?_, fun ⟨s, hs, hname⟩ => ?_⟩⟩
  · refine (Query.run_bind_eq_ok rows (Query.run_scan rows _ _)).trans ?_
    rw [List.mapM_map]
    exact congrArg (fun r => (Query.ofFormat r).run rows) huris
  · have hscan : (rows.scan ((IndexPart.names kind).table.key (joinKey [name, ""]))).Nodup := by
      rw [Rows.scan_eq_filter]
      exact (OrderedMap.nodup_of_ascending rows.ascending).filter _
    have himage := eq_map_of_forall₂ (f := fun uri =>
        ((IndexPart.names kind).table.key (joinKey [name, uri]), Bytes.ofText uri)) hall (by
      intro row hmem uri hread
      obtain ⟨uri', -, -, -, rfl⟩ := hrow.1 hmem
      rw [readText_ofText, Except.ok.injEq] at hread
      rw [hread])
    rw [himage] at hscan
    exact hscan.of_map
  · obtain ⟨row, hmem, hread⟩ := exists_left_of_forall₂ hall hmem
    obtain ⟨uri', s, hs, hname, rfl⟩ := hrow.1 hmem
    rw [readText_ofText, Except.ok.injEq] at hread
    exact ⟨s, hread ▸ hs, hname⟩
  · obtain ⟨uri', hmem, hread⟩ := exists_right_of_forall₂ hall (hrow.2 ⟨uri, s, hs, hname, rfl⟩)
    rw [readText_ofText, Except.ok.injEq] at hread
    exact hread ▸ hmem

theorem readKey_joinKey {name uri : String} (hname : NulFree name) :
    NameIndex.readKey (joinKey [name, uri]) = .ok (name, uri) := by
  have hne : ∀ b ∈ Bytes.ofText name, (b != 0) = true := by
    intro b hb
    rw [bne_iff_ne]
    rintro rfl
    exact Bytes.zero_not_mem hname hb
  have htake : (joinKey [name, uri]).takeWhile (· != 0) = Bytes.ofText name := by
    rw [joinKey_pair, List.takeWhile_append_of_pos hne]
    simp
  have hdrop : (joinKey [name, uri]).dropWhile (· != 0) = 0 :: Bytes.ofText uri := by
    rw [joinKey_pair, List.dropWhile_append_of_pos hne]
    simp
  simp only [NameIndex.readKey, hdrop, htake, readText_ofText]
  rfl

/-- The names found behind a class are those of its members. -/
theorem run_names_findFrom (h : Holds rows last) {kind : TableKind} (hkind : kind.isMember)
    {owner : String} (hnul : NulFree owner) (hat : AtFree owner) :
    ∃ names, ((KindTables.of kind).names.findFrom (memberKey owner "")).run rows = .ok names ∧
      ∀ name uri, (name, uri) ∈ names ↔
        ∃ s, LiveIn last kind uri s ∧ s.indexName = name ∧ s.scope? = some owner := by
  have hrow {row : Row} :
      row ∈ rows.scan ((IndexPart.names kind).table.key (Bytes.ofText (memberKey owner ""))) ↔
      ∃ uri s, LiveIn last kind uri s ∧ s.scope? = some owner ∧
        row = ((IndexPart.names kind).table.key (joinKey [s.indexName, uri]),
          Bytes.ofText uri) := by
    rw [h.mem_scan_names]
    refine exists_congr fun uri => exists_congr fun s => and_congr_right fun hs => ?_
    refine and_congr_left fun _ => ?_
    have hsome := (Symbol.isSome_scope? hs.table).trans hkind
    obtain ⟨scope, hscope⟩ := Option.isSome_iff_exists.1 hsome
    have hindex : s.indexName = memberKey scope s.name := by
      rw [Symbol.indexName, hscope]
    rw [hscope, Option.some.injEq, joinKey_pair, hindex, Symbol.ofText_memberKey,
      Symbol.ofText_memberKey, List.append_assoc, List.cons_append]
    constructor
    · intro hbegins
      have hscopeAt := ((hs.separable h).2 scope hscope).2.1
      exact (Bytes.ofText_inj (cut_separator (Bytes.at_not_mem hat)
        (Bytes.at_not_mem hscopeAt) hbegins).1).symm
    · rintro rfl
      exact ⟨Bytes.ofText s.name ++ 0 :: Bytes.ofText uri, by simp⟩
  have hread {uri : String} {s : Symbol} (hs : LiveIn last kind uri s) :
      NameIndex.readKey (((IndexPart.names kind).table.key (joinKey [s.indexName, uri])).drop
        (IndexPart.names kind).table.lead.length) = .ok (s.indexName, uri) := by
    rw [Table.key, List.drop_left]
    exact readKey_joinKey (hs.separable h).indexName
  obtain ⟨names, hnames, hall⟩ := mapM_eq_ok (f := fun row : Row =>
      NameIndex.readKey (row.1.drop (IndexPart.names kind).table.lead.length))
    (l := rows.scan ((IndexPart.names kind).table.key (Bytes.ofText (memberKey owner "")))) (by
      intro row hmem
      obtain ⟨uri, s, hs, -, rfl⟩ := hrow.1 hmem
      exact ⟨_, hread hs⟩)
  refine ⟨names, ?_, fun name uri => ⟨fun hmem => ?_, fun hlive => ?_⟩⟩
  · refine (Query.run_bind_eq_ok rows (Query.run_scan rows _ _)).trans ?_
    rw [List.mapM_map]
    exact congrArg (fun r => (Query.ofFormat r).run rows) hnames
  · obtain ⟨row, hmem, hpair⟩ := exists_left_of_forall₂ hall hmem
    obtain ⟨uri', s, hs, hscope, rfl⟩ := hrow.1 hmem
    simp only [hread hs, Except.ok.injEq, Prod.mk.injEq] at hpair
    obtain ⟨rfl, rfl⟩ := hpair
    exact ⟨s, hs, rfl, hscope⟩
  · obtain ⟨s, hs, hname, hscope⟩ := hlive
    obtain ⟨pair, hmem, hpair⟩ := exists_right_of_forall₂ hall (hrow.2 ⟨uri, s, hs, hscope, rfl⟩)
    simp only [hread hs, Except.ok.injEq] at hpair
    rwa [← hpair, hname] at hmem

/-- A name finds the candidates of the live symbols stored under it, wherever they are located. -/
theorem run_find_candidates (h : Holds rows last) (kind : TableKind) (name : String) :
    ∃ found, (Index.find kind name).run rows = .ok (Symbol.candidates found) ∧
      ∀ t, t ∈ found ↔ ∃ s, Live last kind s ∧ s.indexName = name ∧ t = s.normal := by
  obtain ⟨uris, huris, -, hmem⟩ := h.run_names_find kind name
  obtain ⟨found, hfound, hall⟩ := h.run_hydrate kind id (fun _ => name)
    (fun uri huri => by
      obtain ⟨s, hs, hname⟩ := (hmem uri).1 huri
      exact ⟨s, hs, hname, hname⟩)
    fun uri s hs (hname : s.indexName = name) =>
      ⟨uri, (hmem uri).2 ⟨s, hs, hname⟩, rfl, hname.symm⟩
  exact ⟨found, (Query.run_bind_eq_ok rows huris).trans hfound, hall⟩

theorem find_exact (h : Holds rows last) (hlocated : ∀ uri v, last uri = some v → v.Located)
    (kind : TableKind) (name : String) : ∃ found, (Index.find kind name).run rows = .ok found ∧
      Lists found fun s => Live last kind s ∧ s.indexName = name := by
  obtain ⟨found, hfound, hall⟩ := h.run_find_candidates kind name
  exact ⟨_, hfound, h.lists_candidates hlocated (apartByName_indexName kind name) hall⟩

/-- What a name finds are the candidates of any list of the live symbols stored under it. -/
theorem run_find_eq (h : Holds rows last) (hlocated : ∀ uri v, last uri = some v → v.Located)
    (kind : TableKind) (name : String) {symbols : List Symbol}
    (hsymbols : ∀ t, t ∈ symbols ↔ ∃ s, Live last kind s ∧ s.indexName = name ∧ t = s.normal) :
    (Index.find kind name).run rows = .ok (Symbol.candidates symbols) := by
  obtain ⟨found, hfound, hlists⟩ := h.find_exact hlocated kind name
  have hdistinct : Symbol.Distinct symbols :=
    h.distinct hlocated (apartByName_indexName kind name) hsymbols
  have hself := Symbol.candidates_eq_self hlists.ordered hlists.nodup
  rw [hfound, ← hself, Symbol.eq_candidates hdistinct fun t =>
    (hsymbols t).trans (h.mem_lists hlists).symm]

theorem membersOf_exact (h : Holds rows last)
    (hlocated : ∀ uri v, last uri = some v → v.Located) {kind : TableKind}
    (hkind : kind.isMember) {owner : String} (hnul : NulFree owner) (hat : AtFree owner) :
    ∃ found, (Index.membersOf kind owner).run rows = .ok found ∧
      Lists found fun s => Live last kind s ∧ s.scope? = some owner := by
  obtain ⟨names, hnames, hmem⟩ := h.run_names_findFrom hkind hnul hat
  obtain ⟨found, hfound, hall⟩ := h.run_hydrate kind Prod.snd Prod.fst
    (fun (name, uri) hname => by
      obtain ⟨s, hs, hindex, hscope⟩ := (hmem name uri).1 hname
      exact ⟨s, hs, hindex, hscope⟩)
    fun uri s hs (hscope : s.scope? = some owner) =>
      ⟨(s.indexName, uri), (hmem _ _).2 ⟨s, hs, rfl, hscope⟩, rfl, rfl⟩
  refine ⟨_, (Query.run_bind_eq_ok rows hnames).trans hfound, ?_⟩
  exact h.lists_candidates hlocated (apartByName_scope kind owner) hall

end Holds

/-! ## One replacement -/

section Replacement
variable {last : String → Option Version} {v : Version}

/-- What the new version has as well, all last versions have after it took its place. -/
theorem forall_lastAfter {P : Version → Prop} (h : ∀ uri w, last uri = some w → P w) (hv : P v) :
    ∀ uri w, (Operation.replace v).lastAfter last uri = some w → P w := by
  intro uri w hw
  simp only [Operation.lastAfter] at hw
  split at hw
  · exact Option.some.inj hw ▸ hv
  · exact h uri w hw

theorem liveIn_lastAfter_iff {kind : TableKind} {uri : String} (hne : uri ≠ v.uri) {s : Symbol} :
    LiveIn ((Operation.replace v).lastAfter last) kind uri s ↔ LiveIn last kind uri s := by
  rw [LiveIn, LiveIn, Operation.lastAfter, if_neg hne]

theorem liveIn_lastAfter_self {kind : TableKind} {s : Symbol} :
    LiveIn ((Operation.replace v).lastAfter last) kind v.uri s ↔
      v.declared kind s.indexName = some s := by
  rw [LiveIn, Operation.lastAfter, if_pos rfl]
  simp only [Option.some.injEq, exists_eq_left']

/-- A document that is not replaced is listed as it was. -/
theorem Holds.mem_iff_of_uri_ne {before after : Rows} (h : Holds before last)
    (h' : Holds after ((Operation.replace v).lastAfter last))
    (hlocated : ∀ uri w, last uri = some w → w.Located) (hv : v.Located) {kind : TableKind}
    {wanted : Symbol → Prop} {a b : List Symbol}
    (ha : Lists a fun s => Live last kind s ∧ wanted s)
    (hb : Lists b fun s => Live ((Operation.replace v).lastAfter last) kind s ∧ wanted s)
    {t : Symbol} (ht : t.location.uri ≠ v.uri) : t ∈ a ↔ t ∈ b := by
  have hlocated' := forall_lastAfter hlocated hv
  rw [h.mem_lists ha, h'.mem_lists hb]
  refine exists_congr fun s => and_congr_left fun ⟨hsw, hnormal⟩ => ?_
  constructor
  · rintro ⟨u, hs⟩
    obtain ⟨hlocation, huri⟩ := hs.location_normal h hlocated
    refine ⟨u, (liveIn_lastAfter_iff fun hu => ht ?_).2 hs⟩
    rw [hnormal, hlocation, huri, hu]
  · rintro ⟨u, hs⟩
    obtain ⟨hlocation, huri⟩ := hs.location_normal h' hlocated'
    refine ⟨u, (liveIn_lastAfter_iff fun hu => ht ?_).1 hs⟩
    rw [hnormal, hlocation, huri, hu]

end Replacement

theorem replace_mem_of_lastVersion {ops : List Operation} {uri : String} {v : Version}
    (h : lastVersion ops uri = some v) : .replace v ∈ ops := by
  suffices hall : ∀ last, ops.foldl Operation.lastAfter last uri = some v →
      .replace v ∈ ops ∨ last uri = some v from (hall _ h).elim id nofun
  clear h
  induction ops with
  | nil => exact fun last h => .inr h
  | cons op rest ih =>
    intro last h
    rcases ih (op.lastAfter last) h with h | h
    · exact .inl (List.mem_cons_of_mem op h)
    · cases op with
      | replace w =>
        simp only [Operation.lastAfter] at h
        split at h
        · obtain rfl := Option.some.inj h
          exact .inl List.mem_cons_self
        · exact .inr h
      | remove removed =>
        simp only [Operation.lastAfter] at h
        split at h
        · cases h
        · exact .inr h

/-- Whether the symbols that the operation stores have their full locations. -/
def Operation.Located : Operation → Prop
  | .replace v => v.Located
  | .remove _ => True

instance : DecidablePred Operation.Located
  | .replace v => inferInstanceAs (Decidable v.Located)
  | .remove _ => inferInstanceAs (Decidable True)

theorem located_of_lastVersion {ops : List Operation} (h : ∀ op ∈ ops, op.Located) {uri : String}
    {v : Version} (hv : lastVersion ops uri = some v) : v.Located :=
  h _ (replace_mem_of_lastVersion hv)

/-- After any run a name finds the live symbols stored under it, and a class its live members. -/
theorem lookups_exact {ops : List Operation} (hops : ∀ op ∈ ops, op.Valid)
    (hlocated : ∀ op ∈ ops, op.Located) :
    ∃ s, Store.volatile.runAll ops = .ok s ∧
      (∀ kind name, ∃ found, (Index.source s.rows).find kind name = .ok found ∧
        Lists found fun x => Live (lastVersion ops) kind x ∧ x.indexName = name) ∧
      ∀ kind owner, kind.isMember → NulFree owner → AtFree owner →
        ∃ found, (Index.source s.rows).membersOf kind owner = .ok found ∧
          Lists found fun x => Live (lastVersion ops) kind x ∧ x.scope? = some owner := by
  obtain ⟨s, hrun, h⟩ := Holds.runAll (s := .volatile) Holds.empty hops
  have hlast : ∀ uri v, lastVersion ops uri = some v → v.Located := fun _ _ hv =>
    located_of_lastVersion hlocated hv
  exact ⟨s, hrun, fun kind name => h.find_exact hlast kind name,
    fun kind owner hkind hnul hat => h.membersOf_exact hlast hkind hnul hat⟩

theorem lookups_exact_members :
    let get : Symbol := .method ⟨"get", "Box", .of "a.php" ⟨4, 9⟩, {}, {}, .empty, none⟩
    let ops := [.replace (.ofSymbols "a.php" [get, get]), .remove "b.php"]
    (∀ op ∈ ops, op.Valid ∧ op.Located) ∧
      ∃ s, Store.volatile.runAll ops = .ok s ∧
        (∀ kind name, ∃ found, (Index.source s.rows).find kind name = .ok found ∧
          Lists found fun x => Live (lastVersion ops) kind x ∧ x.indexName = name) ∧
        ∀ kind owner, kind.isMember → NulFree owner → AtFree owner →
          ∃ found, (Index.source s.rows).membersOf kind owner = .ok found ∧
            Lists found fun x => Live (lastVersion ops) kind x ∧ x.scope? = some owner := by
  intro get ops
  have hops : ∀ op ∈ ops, op.Valid ∧ op.Located := by decide
  exact ⟨hops, lookups_exact (fun op hop => (hops op hop).1) fun op hop => (hops op hop).2⟩

/-- A function whose declaration has a document, but no range in it. -/
def rangeless (uri result : String) : Symbol :=
  .function ⟨"f", ⟨some uri, none⟩, ⟨[], .single ⟨result, true⟩⟩, none⟩

/-- A method whose declaration has a document, but no range in it. -/
def rangelessMethod (uri name : String) : Symbol :=
  .method ⟨name, "Box", ⟨some uri, none⟩, {}, {}, .empty, none⟩

/-- Two documents with a method of one class each. Their order is not that of the names. -/
def rangelessVersions : List Version :=
  [.ofSymbols "a" [rangelessMethod "a" "getName"], .ofSymbols "b" [rangelessMethod "b" "getId"]]

/-- Their records in the order of the names. -/
def rangelessRecords : List Symbol :=
  [(rangelessMethod "b" "getId").normal, (rangelessMethod "a" "getName").normal]

theorem candidates_rangelessRecords :
    Symbol.candidates rangelessRecords = rangelessRecords :=
  Symbol.candidates_eq_self (by decide) (by decide)

/-- A function with this description. -/
def described (description : String) : Symbol :=
  .function ⟨"f", .of "a" ⟨0, 0⟩, .empty, some description⟩

/-- A description whose length has more than 32 bits. -/
def oversized : String := String.ofList (List.replicate UInt32.size 'a')

theorem length_oversized : (Bytes.ofText oversized).length = UInt32.size := by
  have hlength (n : Nat) : (Bytes.ofText (String.ofList (List.replicate n 'a'))).length = n := by
    rw [Bytes.ofText_eq_flatMap, String.toList_ofList, List.length_flatMap, List.map_replicate,
      List.sum_replicate_nat]
    exact Nat.mul_one n
  exact hlength UInt32.size

/-- The record is read as one with an empty description, and the rest of it is left over. -/
theorem ofRecord_oversized (s : Symbol) : ofRecord (toRecord (described oversized)) ≠ .ok s := by
  obtain ⟨front, hfront⟩ : ∃ front, ∀ d, toRecord (described d) = front ++ Write.text d := by
    refine ⟨Write.word Tag.function ++ (Write.text "f" ++ Write.location (.of "a" ⟨0, 0⟩) ++
      RecordFormat.write Signature.empty ++ Write.bool true), fun d => ?_⟩
    simp only [List.append_assoc]
    rfl
  have hcut : toRecord (described oversized) =
      toRecord (described "") ++ Bytes.ofText oversized := by
    rw [hfront, hfront, List.append_assoc, Write.text, length_oversized]
    rfl
  have hlength : (Bytes.ofText oversized).length = 4294967295 + 1 := length_oversized
  rw [hcut, ofRecord_append (takes_symbol (s := described "") (by decide)) hlength]
  intro h
  cases h

/-- Where an entry leads to a row that cannot be read there is no answer. -/
theorem hydrate_ne_ok {rows : Rows} {kind : TableKind} {entries : List ε} (uri name : ε → String)
    {e : ε} (he : e ∈ entries) {bytes : Bytes}
    (hrow : rows.get? ((IndexPart.declarations kind).table.key (joinKey [uri e, name e])) =
      some bytes)
    (hread : ∀ s : Symbol, ofRecord bytes ≠ .ok s) (found : List Symbol) :
    (do
      let found ← Query.forEach
        (fun e => (KindTables.of kind).declarations.get (uri e) (name e)) entries
      pure (Symbol.candidates (found.filterMap id)) : Query (List Symbol)).run rows ≠
        .ok found := by
  intro h
  have hget (s? : Option Symbol) :
      ((KindTables.of kind).declarations.get (uri e) (name e)).run rows ≠ .ok s? := by
    rw [DeclarationTable.get, Query.run_bind_eq_ok rows (Query.run_get rows _ _)]
    rw [show (KindTables.of kind).declarations.table = (IndexPart.declarations kind).table from rfl,
      hrow]
    cases hs : ofRecord (α := Symbol) bytes with
    | ok s => exact absurd hs (hread s)
    | error e =>
      simp only [hs]
      exact nofun
  rw [Query.run_bind, Query.run_forEach] at h
  cases hall : entries.mapM (fun e =>
      ((KindTables.of kind).declarations.get (uri e) (name e)).run rows) with
  | error e =>
    rw [hall] at h
    cases h
  | ok found =>
    obtain ⟨s?, -, hs⟩ := exists_right_of_forall₂ (forall₂_of_mapM_eq_ok hall) he
    exact hget s? hs

/-- The name row of a version that is alone in its store is found. -/
theorem mem_uris_of_run_find {v : Version} (kind : TableKind) {s : Symbol} (hs : s ∈ v.symbols)
    (hkind : s.table? = some kind) {uris : List String}
    (h : ((KindTables.of kind).names.find s.indexName).run v.rows = .ok uris) : v.uri ∈ uris := by
  have hget : v.rows.get? ((IndexPart.names kind).table.key (joinKey [s.indexName, v.uri])) =
      some (Bytes.ofText v.uri) := by
    refine (Version.get?_rows_iff (p := .names kind) fun value hvalue => ?_).2
      ⟨s, hs, hkind, rfl, rfl⟩
    obtain ⟨-, -, -, -, rfl⟩ := hvalue
    rfl
  have hscan : ((IndexPart.names kind).table.key (joinKey [s.indexName, v.uri]),
      Bytes.ofText v.uri) ∈ v.rows.scan ((IndexPart.names kind).table.key
        (joinKey [s.indexName, ""])) := by
    refine Rows.mem_scan.2 ⟨hget, IndexPart.key_prefix_iff.2 ⟨rfl, ?_⟩⟩
    rw [joinKey_pair, joinKey_pair]
    exact ⟨Bytes.ofText v.uri, by simp⟩
  rw [NameIndex.find, Query.run_bind_eq_ok v.rows (Query.run_scan v.rows _ _), List.mapM_map] at h
  cases hall : (v.rows.scan ((IndexPart.names kind).table.key (joinKey [s.indexName, ""]))).mapM
      (fun row => NameIndex.readText row.2) with
  | error e =>
    have hfail : (Except.error (.format e) : Except StoreError (List String)) = .ok uris :=
      (congrArg (fun r => (Query.ofFormat r).run v.rows) hall).symm.trans h
    cases hfail
  | ok found =>
    have hfound : (Except.ok found : Except StoreError (List String)) = .ok uris :=
      (congrArg (fun r => (Query.ofFormat r).run v.rows) hall).symm.trans h
    obtain ⟨uri, hmem, hread⟩ := exists_right_of_forall₂ (forall₂_of_mapM_eq_ok hall) hscan
    rw [Holds.readText_ofText, Except.ok.injEq] at hread
    rw [← Except.ok.inj hfound, hread]
    exact hmem

theorem run_candidates (rows : Rows) (entries : Query (List ε)) (get : ε → Query (Option Symbol)) :
    (do
      let es ← entries
      let found ← Query.forEach get es
      pure (Symbol.candidates (found.filterMap id)) : Query (List Symbol)).run rows =
      ((entries >>= Query.forEach get).run rows).map fun found =>
        Symbol.candidates (found.filterMap id) := by
  rw [Query.run_bind, Query.run_bind]
  cases entries.run rows with
  | error e => rfl
  | ok es =>
    simp only [Except.bind, Query.run_bind]
    cases (Query.forEach get es).run rows <;> rfl

/-- What a query finds that reads the records of the methods without a range, in their order. -/
theorem exists_listed_rangeless (entries : Query (List ε)) (get : ε → Query (Option Symbol))
    (hrun : (Store.volatile.runAll (rangelessVersions.map .replace)).bind (fun s =>
      (entries >>= Query.forEach get).run s.rows) = .ok (rangelessRecords.map some)) :
    ∃ s, Store.volatile.runAll (rangelessVersions.map .replace) = .ok s ∧
      (do
        let es ← entries
        let found ← Query.forEach get es
        pure (Symbol.candidates (found.filterMap id)) : Query (List Symbol)).run s.rows =
          .ok rangelessRecords := by
  cases hs : Store.volatile.runAll (rangelessVersions.map .replace) with
  | error e =>
    rw [hs] at hrun
    cases hrun
  | ok s =>
    rw [hs] at hrun
    simp only [Except.bind] at hrun
    refine ⟨s, rfl, ?_⟩
    rw [run_candidates, hrun]
    refine congrArg Except.ok ?_
    simp only [List.filterMap_map, Function.id_comp, List.filterMap_some]
    exact candidates_rangelessRecords

/-- What is stored with an overlong text is not found. -/
theorem run_find_oversized {v : Version} (huri : v.uri = "a")
    (hsymbols : v.symbols = [described oversized]) :
    ∃ s, (Operation.replace v).run .volatile = .ok s ∧
      ∀ found, (Index.source s.rows).find .functions "f" ≠ .ok found := by
  obtain ⟨s, hrun, hrows⟩ := run_replace_volatile (v := v) (huri ▸ by decide)
  refine ⟨s, hrun, fun found hfound => ?_⟩
  have hrow : s.rows.get? ((IndexPart.declarations .functions).table.key (joinKey ["a", "f"])) =
      some (toRecord (described oversized)) := by
    rw [hrows, ← huri, Version.get?_rows_declaration, Version.declared, hsymbols]
    rfl
  cases huris : ((KindTables.of .functions).names.find "f").run s.rows with
  | error e =>
    rw [show (Index.source s.rows).find .functions "f" = _ from Query.run_bind _ _ _, huris]
      at hfound
    cases hfound
  | ok uris =>
    have hmem : v.uri ∈ uris := mem_uris_of_run_find (s := described oversized) .functions
      (hsymbols ▸ List.mem_cons_self) rfl (hrows ▸ huris)
    refine hydrate_ne_ok id (fun _ => "f") (huri ▸ hmem) hrow ofRecord_oversized found ?_
    exact (Query.run_bind_eq_ok s.rows huris).symm.trans hfound

/-- Members without a range are listed by their names and not by their documents, and a symbol
with an overlong text is not found at all. -/
theorem lookups_inexact :
    ((∀ v ∈ rangelessVersions, v.Valid ∧ ∀ s ∈ v.symbols, s.location.uri? = some v.uri) ∧
      ∃ s, Store.volatile.runAll (rangelessVersions.map .replace) = .ok s ∧
        (Index.source s.rows).membersOf .methods "Box" =
          .ok [(rangelessMethod "b" "getId").normal, (rangelessMethod "a" "getName").normal]) ∧
    (described oversized).Separable ∧ (Version.ofSymbols "a" [described oversized]).Located ∧
      ∃ s, Store.volatile.runAll [.replace (.ofSymbols "a" [described oversized])] = .ok s ∧
        ∀ found, (Index.source s.rows).find .functions "f" ≠ .ok found := by
  refine ⟨⟨by decide, ?_⟩, ⟨by decide, nofun⟩, ?_, ?_⟩
  · obtain ⟨s, hrun, hmembers⟩ := exists_listed_rangeless
      ((KindTables.of .methods).names.findFrom (memberKey "Box" ""))
      (fun row => (KindTables.of .methods).declarations.get row.2 row.1) (by decide +kernel)
    exact ⟨s, hrun, hmembers⟩
  · decide
  · obtain ⟨s, hrun, hfind⟩ := run_find_oversized (v := .ofSymbols "a" [described oversized]) rfl rfl
    exact ⟨s, by rw [Store.runAll, List.foldlM_cons, hrun]; rfl, hfind⟩

end PhpIndex
