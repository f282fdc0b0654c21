import PhpIndex.Proofs.Index.Version
import PhpIndex.Proofs.Store.Queries

/-!
# Histories

The store after any run of replacements and removals holds the rows of the last version of each
document and nothing else. Removal finds the rows of a document by decoding its declarations; it
reaches every row, because the rows of one name are made of the name and its class alone.
Main statements: `Holds.replace`, `Holds.remove`, `Holds.rows_eq`.
-/
namespace PhpIndex

/-- The changes that the removal of a document makes: single rows of the document, and all its
rows in tables where these are neighbours. -/
inductive Removes (uri : String) : Change → Prop where
  | row (p : IndexPart) {k : Bytes} (h : p.HasKey uri k) : Removes uri (.delete (p.table.key k))
  | declarations (kind : TableKind) :
    Removes uri (.deleteAll ((IndexPart.declarations kind).table.key (joinKey [uri, ""])))
  | references : Removes uri (.deleteAll (IndexPart.references.table.key (Key.ofText uri)))
  | scopes : Removes uri (.deleteAll (IndexPart.scopes.table.key (Key.ofText uri)))

theorem Removes.isPut {uri : String} {c : Change} (h : Removes uri c) : c.isPut = false := by
  cases h <;> rfl

/-- A removal touches the rows of its document only. -/
theorem Removes.uri_eq {uri uri' : String} (huri : NulFree uri) (huri' : NulFree uri')
    {c : Change} (h : Removes uri c) {key : Bytes} (hkey : KeyOf uri' key)
    (htouches : c.Touches key) : uri' = uri := by
  have hz := Bytes.zero_not_mem huri
  have hz' := Bytes.zero_not_mem huri'
  obtain ⟨q, j, rfl, hj⟩ := hkey
  have hrange {range : Range} {number : UInt32}
      (hbegins : Key.ofText uri <+: RangeIndex.key uri' range number) : uri' = uri := by
    obtain ⟨rest, hrest⟩ := IndexPart.rangeKey_eq huri' range number
    rw [hrest, Key.ofText_of_nulFree huri] at hbegins
    exact (Bytes.ofText_inj (cut_separator hz hz' hbegins).1).symm
  cases h with
  | row p h =>
    obtain ⟨rfl, rfl⟩ := IndexPart.key_inj htouches
    exact hj.unique huri' huri h
  | declarations kind =>
    obtain ⟨rfl, hbegins⟩ := IndexPart.key_prefix_iff.1 htouches
    obtain ⟨name, rfl⟩ := hj
    rw [joinKey_pair, joinKey_pair] at hbegins
    exact (Bytes.ofText_inj (cut_separator hz hz' hbegins).1).symm
  | references =>
    obtain ⟨rfl, hbegins⟩ := IndexPart.key_prefix_iff.1 htouches
    obtain ⟨range, number, rfl⟩ := hj
    exact hrange hbegins
  | scopes =>
    obtain ⟨rfl, hbegins⟩ := IndexPart.key_prefix_iff.1 htouches
    obtain ⟨range, number, rfl⟩ := hj
    exact hrange hbegins

/-- The declarations of a document are what its rows are read as. -/
theorem Index.run_symbolsOfKind_eq (rows : Rows) (uri : String) (kind : TableKind) :
    (symbolsOfKind uri kind).run rows =
      ((rows.scan ((IndexPart.declarations kind).table.key (joinKey [uri, ""]))).mapM
        fun row => ofRecord row.2).mapError StoreError.format := by
  have hscan := Query.run_scan rows (IndexPart.declarations kind).table (joinKey [uri, ""])
  rw [show (symbolsOfKind uri kind).run rows = _ from Query.run_bind_eq_ok rows hscan,
    Query.run_ofFormat, List.mapM_map, Function.comp_def]

theorem Index.run_symbolsOfKind_iff {rows : Rows} {uri : String} {kind : TableKind}
    {old : List Symbol} : (symbolsOfKind uri kind).run rows = .ok old ↔
      (rows.scan ((IndexPart.declarations kind).table.key (joinKey [uri, ""]))).mapM
        (fun row => ofRecord row.2) = .ok old := by
  rw [run_symbolsOfKind_eq]
  exact mapError_eq_ok

/-- The rows are those of the last versions of the documents. -/
structure Holds (rows : Rows) (last : String → Option Version) : Prop where
  valid : ∀ uri v, last uri = some v → v.Valid
  uri : ∀ uri v, last uri = some v → v.uri = uri
  rows : ∀ key value, rows.get? key = some value ↔
    ∃ uri v, last uri = some v ∧ v.rows.get? key = some value

namespace Holds
variable {rows : Rows} {last : String → Option Version}

theorem empty : Holds .empty fun _ => none where
  valid := nofun
  uri := nofun
  rows := fun key value => ⟨fun h => (by cases h), fun ⟨_, _, h, _⟩ => (by cases h)⟩

/-- A row of a document is a row of its last version. -/
theorem get?_of_keyOf (h : Holds rows last) {uri : String} (huri : NulFree uri) {key : Bytes}
    (hkey : KeyOf uri key) {value : Bytes} :
    rows.get? key = some value ↔ ∃ v, last uri = some v ∧ v.rows.get? key = some value := by
  rw [h.rows]
  refine ⟨fun ⟨uri', v, hv, hvalue⟩ => ?_, fun ⟨v, hv, hvalue⟩ => ⟨uri, v, hv, hvalue⟩⟩
  have hvalid := h.valid uri' v hv
  have heq := (Version.keyOf_of_get?_rows hvalid hvalue).unique hvalid.uri huri hkey
  rw [h.uri uri' v hv] at heq
  subst heq
  exact ⟨v, hv, hvalue⟩

/-- What stands under a key of a table was entered there by a last version. -/
theorem exists_enters (h : Holds rows last) {p : IndexPart} {k value : Bytes}
    (hget : rows.get? (p.table.key k) = some value) :
    ∃ v, last v.uri = some v ∧ v.Enters p k value := by
  obtain ⟨uri, v, hv, hvalue⟩ := (h.rows _ _).1 hget
  obtain rfl := h.uri uri v hv
  exact ⟨v, hv, Version.enters_of_get?_rows hvalue⟩

/-- Where all entries of a last version under a key have one value, that value stands under it. -/
theorem get?_of_enters (h : Holds rows last) {v : Version} (hv : last v.uri = some v)
    {p : IndexPart} {k value : Bytes} (henters : v.Enters p k value)
    (hvalue : ∀ value', v.Enters p k value' → value' = value) :
    rows.get? (p.table.key k) = some value :=
  (h.rows _ _).2 ⟨v.uri, v, hv, (Version.get?_rows_iff hvalue).2 henters⟩

/-- The rows that a scan of the declarations of a document visits. -/
theorem mem_scan_declarations (h : Holds rows last) {uri : String} (huri : NulFree uri)
    (kind : TableKind) {row : Row} :
    row ∈ rows.scan ((IndexPart.declarations kind).table.key (joinKey [uri, ""])) ↔
      ∃ v name s, last uri = some v ∧ v.declared kind name = some s ∧
        row = ((IndexPart.declarations kind).table.key (joinKey [uri, name]), toRecord s) := by
  obtain ⟨key, value⟩ := row
  rw [IndexPart.mem_scan]
  constructor
  · rintro ⟨k, hk, rfl, hget⟩
    obtain ⟨uri', v, hv, hvalue⟩ := (h.rows _ _).1 hget
    have hvalid := h.valid uri' v hv
    obtain ⟨s, -, -, rfl, -⟩ := Version.enters_of_get?_rows hvalue
    rw [joinKey_pair, joinKey_pair] at hk
    have heq := (cut_separator (Bytes.zero_not_mem huri) (Bytes.zero_not_mem hvalid.uri) hk).1
    obtain rfl := Bytes.ofText_inj heq
    rw [Version.get?_rows_declaration, Option.map_eq_some_iff] at hvalue
    obtain ⟨t, ht, rfl⟩ := hvalue
    exact ⟨v, s.indexName, t, h.uri uri' v hv ▸ hv, ht, rfl⟩
  · rintro ⟨v, name, s, hv, hs, heq⟩
    obtain ⟨rfl, rfl⟩ := Prod.mk.inj heq
    obtain rfl := h.uri uri v hv
    refine ⟨joinKey [v.uri, name], ?_, rfl, (h.rows _ _).2 ⟨v.uri, v, hv, ?_⟩⟩
    · rw [joinKey_pair, joinKey_pair]
      exact ⟨Bytes.ofText name, by simp⟩
    · rw [Version.get?_rows_declaration, hs]
      rfl

/-- The declarations of a document are read back in full. -/
theorem run_symbolsOfKind (h : Holds rows last) {uri : String} (huri : NulFree uri)
    (kind : TableKind) : ∃ old, (Index.symbolsOfKind uri kind).run rows = .ok old ∧
      ∀ t, t ∈ old ↔ ∃ v name s, last uri = some v ∧ v.declared kind name = some s ∧
        t = s.normal := by
  have hdecode {v : Version} {name : String} {s : Symbol} (hv : last uri = some v)
      (hs : v.declared kind name = some s) : ofRecord (toRecord s) = .ok s.normal :=
    ofRecord_symbol ((h.valid uri v hv).fits s (Version.declared_eq_some hs).1)
  have hrows : ∀ row ∈ rows.scan ((IndexPart.declarations kind).table.key (joinKey [uri, ""])),
      ∃ t, ofRecord (α := Symbol) row.2 = .ok t := by
    intro row hrow
    obtain ⟨v, name, s, hv, hs, rfl⟩ := (h.mem_scan_declarations huri kind).1 hrow
    exact ⟨s.normal, hdecode hv hs⟩
  obtain ⟨old, hold, hall⟩ := mapM_eq_ok hrows
  refine ⟨old, Index.run_symbolsOfKind_iff.2 hold, fun t => ⟨fun ht => ?_, ?_⟩⟩
  · obtain ⟨row, hrow, ht⟩ := exists_left_of_forall₂ hall ht
    obtain ⟨v, name, s, hv, hs, rfl⟩ := (h.mem_scan_declarations huri kind).1 hrow
    rw [hdecode hv hs, Except.ok.injEq] at ht
    exact ⟨v, name, s, hv, hs, ht.symm⟩
  · rintro ⟨v, name, s, hv, hs, rfl⟩
    obtain ⟨t, ht, hrow⟩ := exists_right_of_forall₂ hall
      ((h.mem_scan_declarations huri kind).2 ⟨v, name, s, hv, hs, rfl⟩)
    rw [hdecode hv hs, Except.ok.injEq] at hrow
    exact hrow ▸ ht

/-- What the removal of one kind of declaration is made of, and that it reaches their rows. -/
theorem run_kindRemoval (h : Holds rows last) {uri : String} (huri : NulFree uri)
    (kind : TableKind) : ∃ old, (Index.symbolsOfKind uri kind).run rows = .ok old ∧
      (∀ c ∈ (KindTables.of kind).deleteAll uri old, Removes uri c) ∧
      ∀ v, last uri = some v → ∀ s ∈ v.symbols, s.table? = some kind →
        .delete ((IndexPart.names kind).table.key (joinKey [s.indexName, uri])) ∈
            (KindTables.of kind).deleteAll uri old ∧
          ∀ word ∈ Words.indexed s.completionWord,
            .delete ((IndexPart.words kind).table.key
              (CompletionIndex.key (s.scope?.getD "") word uri s.indexName)) ∈
                (KindTables.of kind).deleteAll uri old := by
  obtain ⟨old, hold, hmem⟩ := h.run_symbolsOfKind huri kind
  refine ⟨old, hold, fun c hc => ?_, fun v hv s hs hkind => ?_⟩
  · rcases List.mem_append.1 hc with hc | hc
    · obtain ⟨t, ht, hc⟩ := List.mem_flatMap.1 hc
      obtain ⟨v, name, s, hv, hs, rfl⟩ := (hmem t).1 ht
      have hsep := (h.valid uri v hv).separable s (Version.declared_eq_some hs).1
      simp only [KindTables.delete, Symbol.indexName_normal, Symbol.completionWord_normal,
        Symbol.scope?_normal] at hc
      rcases List.mem_cons.1 hc with rfl | hc
      · exact .row (.names kind) ⟨s.indexName, hsep.indexName, rfl⟩
      · obtain ⟨word, hword, rfl⟩ := List.mem_map.1 hc
        exact .row (.words kind) ⟨_, word, s.indexName, hsep.plain.scope,
          Words.nulFree_of_mem_indexed hsep.plain.completionWord hword, rfl⟩
    · obtain rfl := List.mem_singleton.1 hc
      exact .declarations kind
  · -- The row that is read is that of the last symbol of the name, which need not be `s`.
    obtain ⟨t, ht⟩ := Version.exists_declared hs hkind
    obtain ⟨htmem, htkind, htname⟩ := Version.declared_eq_some ht
    have hvalid := h.valid uri v hv
    obtain ⟨hscope, hname⟩ := (hvalid.separable t htmem).indexName_inj (hvalid.separable s hs)
      htkind hkind htname
    have hold : t.normal ∈ old := (hmem _).2 ⟨v, s.indexName, t, hv, ht, rfl⟩
    have hdelete : ∀ c ∈ (KindTables.of kind).delete uri t.normal,
        c ∈ (KindTables.of kind).deleteAll uri old := fun c hc =>
      List.mem_append_left _ (List.mem_flatMap.2 ⟨_, hold, hc⟩)
    simp only [KindTables.delete, Symbol.indexName_normal, Symbol.completionWord_normal,
      Symbol.scope?_normal, htname, hscope, Symbol.completionWord_eq hscope hname] at hdelete
    exact ⟨hdelete _ List.mem_cons_self, fun word hword =>
      hdelete _ (List.mem_cons_of_mem _ (List.mem_map.2 ⟨word, hword, rfl⟩))⟩

/-- The removal of a document reaches all its rows. -/
theorem run_removal (h : Holds rows last) {uri : String} (huri : NulFree uri) :
    ∃ batch, (Index.removal uri).run rows = .ok batch ∧ (∀ c ∈ batch, Removes uri c) ∧
      ∀ v, last uri = some v → ∀ key value, v.rows.get? key = some value →
        ∃ c ∈ batch, c.Touches key := by
  choose old hold hremoves hreach using fun kind => h.run_kindRemoval huri kind
  have hbatches := Query.run_forEach_eq_map rows (l := TableKind.all) (f := fun kind => do
      let old ← Index.symbolsOfKind uri kind
      pure ((KindTables.of kind).deleteAll uri old))
    (g := fun kind => (KindTables.of kind).deleteAll uri (old kind))
    fun kind _ => Query.run_bind_eq_ok rows (hold kind)
  refine ⟨_, Query.run_bind_eq_ok rows hbatches, fun c hc => ?_, fun v hv key value hvalue => ?_⟩
  · rcases List.mem_append.1 hc with hc | hc
    · rw [← List.flatMap_def] at hc
      obtain ⟨kind, -, hc⟩ := List.mem_flatMap.1 hc
      exact hremoves kind c hc
    · simp only [List.mem_cons, List.not_mem_nil, or_false] at hc
      rcases hc with rfl | rfl | rfl
      · exact .references
      · exact .scopes
      · exact .row .documents rfl
  · rw [← List.flatMap_def]
    have hkind {kind : TableKind} {c : Change}
        (hc : c ∈ (KindTables.of kind).deleteAll uri (old kind)) :
        c ∈ TableKind.all.flatMap fun kind => (KindTables.of kind).deleteAll uri (old kind) :=
      List.mem_flatMap.2 ⟨kind, by cases kind <;> decide, hc⟩
    obtain rfl := h.uri uri v hv
    obtain ⟨p, k, rfl, henters⟩ := Version.exists_enters hvalue
    cases p with
    | declarations kind =>
      obtain ⟨s, -, -, rfl, -⟩ := henters
      refine ⟨(KindTables.of kind).declarations.deleteAll v.uri,
        List.mem_append_left _ (hkind (List.mem_append_right _ List.mem_cons_self)), ?_⟩
      refine IndexPart.touches_deleteAll (.declarations kind) ?_
      rw [joinKey_pair, joinKey_pair]
      exact ⟨Bytes.ofText s.indexName, by simp⟩
    | names kind =>
      obtain ⟨s, hs, hs', rfl, -⟩ := henters
      exact ⟨_, List.mem_append_left _ (hkind (hreach kind v hv s hs hs').1), rfl⟩
    | words kind =>
      obtain ⟨s, hs, hs', word, hword, rfl, -⟩ := henters
      exact ⟨_, List.mem_append_left _ (hkind ((hreach kind v hv s hs hs').2 word hword)), rfl⟩
    | references =>
      obtain ⟨i, range, r, -, rfl, -⟩ := henters
      refine ⟨referenceTable.deleteAll v.uri, List.mem_append_right _ (by simp), ?_⟩
      exact IndexPart.touches_deleteAll .references (IndexPart.ofText_prefix_key v.uri range _)
    | scopes =>
      obtain ⟨i, range, s, -, -, rfl, -⟩ := henters
      refine ⟨scopeTable.deleteAll v.uri, List.mem_append_right _ (by simp), ?_⟩
      exact IndexPart.touches_deleteAll .scopes (IndexPart.ofText_prefix_key v.uri range _)
    | documents =>
      obtain ⟨rfl, -⟩ := henters
      exact ⟨documentTable.delete v.uri, List.mem_append_right _ (by simp), rfl⟩

/-- What is left after the removal of a document. -/
theorem get?_apply_removal (h : Holds rows last) {uri : String} (huri : NulFree uri)
    {batch : Batch} (hremoves : ∀ c ∈ batch, Removes uri c)
    (hreach : ∀ v, last uri = some v → ∀ key value, v.rows.get? key = some value →
      ∃ c ∈ batch, c.Touches key) (key value : Bytes) :
    (rows.apply batch).get? key = some value ↔
      ∃ u v, u ≠ uri ∧ last u = some v ∧ v.rows.get? key = some value := by
  rw [Rows.get?_apply_removals fun c hc => (hremoves c hc).isPut]
  refine ⟨fun hget => ?_, fun ⟨u, v, hne, hv, hvalue⟩ => ?_⟩
  · split at hget
    · cases hget
    next huntouched =>
      obtain ⟨u, v, hv, hvalue⟩ := (h.rows key value).1 hget
      refine ⟨u, v, fun heq => huntouched ?_, hv, hvalue⟩
      exact hreach v (heq ▸ hv) key value hvalue
  · have hvalid := h.valid u v hv
    have hkey := Version.keyOf_of_get?_rows hvalid hvalue
    have huntouched : ¬ ∃ c ∈ batch, c.Touches key := by
      rintro ⟨c, hc, htouches⟩
      have heq := (hremoves c hc).uri_eq huri hvalid.uri hkey htouches
      exact hne ((h.uri u v hv).symm.trans heq)
    rw [if_neg huntouched]
    exact (h.rows key value).2 ⟨u, v, hv, hvalue⟩

/-- The history of every other document is kept. -/
theorem remove (h : Holds rows last) {uri : String} {batch : Batch}
    (hget : ∀ key value, (rows.apply batch).get? key = some value ↔
      ∃ u v, u ≠ uri ∧ last u = some v ∧ v.rows.get? key = some value) :
    Holds (rows.apply batch) fun u => if u = uri then none else last u := by
  have hlast {u : String} {v : Version} (hv : (if u = uri then none else last u) = some v) :
      u ≠ uri ∧ last u = some v := by
    by_cases hu : u = uri
    · simp [hu] at hv
    · exact ⟨hu, by rwa [if_neg hu] at hv⟩
  refine ⟨fun u v hv => h.valid u v (hlast hv).2, fun u v hv => h.uri u v (hlast hv).2,
    fun key value => ?_⟩
  rw [hget]
  constructor
  · rintro ⟨u, v, hu, hv, hvalue⟩
    exact ⟨u, v, by rwa [if_neg hu], hvalue⟩
  · rintro ⟨u, v, hv, hvalue⟩
    exact ⟨u, v, (hlast hv).1, (hlast hv).2, hvalue⟩

/-- The rows of a version take the place of those of the last version. -/
theorem replace (h : Holds rows last) {v : Version} (hv : v.Valid) {batch : Batch}
    (hget : ∀ key value, (rows.apply batch).get? key = some value ↔
      ∃ u w, u ≠ v.uri ∧ last u = some w ∧ w.rows.get? key = some value) :
    Holds (rows.apply (batch ++ v.puts)) fun u => if u = v.uri then some v else last u := by
  have hlast {u : String} {w : Version} (hw : (if u = v.uri then some v else last u) = some w) :
      (u = v.uri ∧ v = w) ∨ (u ≠ v.uri ∧ last u = some w) := by
    by_cases hu : u = v.uri
    · exact .inl ⟨hu, by simpa [hu] using hw⟩
    · exact .inr ⟨hu, by rwa [if_neg hu] at hw⟩
  refine ⟨fun u w hw => ?_, fun u w hw => ?_, fun key value => ?_⟩
  · rcases hlast hw with ⟨-, rfl⟩ | ⟨-, hw⟩
    · exact hv
    · exact h.valid u w hw
  · rcases hlast hw with ⟨rfl, rfl⟩ | ⟨-, hw⟩
    · rfl
    · exact h.uri u w hw
  · rw [Rows.apply_append, Rows.get?_apply_puts (fun _ => Version.isPut_of_mem_puts)]
    rw [Option.or_eq_some_iff]
    constructor
    · rintro (hvalue | ⟨-, hvalue⟩)
      · exact ⟨v.uri, v, if_pos rfl, hvalue⟩
      · obtain ⟨u, w, hu, hw, hvalue⟩ := (hget key value).1 hvalue
        exact ⟨u, w, by rwa [if_neg hu], hvalue⟩
    · rintro ⟨u, w, hw, hvalue⟩
      rcases hlast hw with ⟨-, rfl⟩ | ⟨hu, hw⟩
      · exact .inl hvalue
      · refine .inr ⟨?_, (hget key value).2 ⟨u, w, hu, hw, hvalue⟩⟩
        -- A key of another document is none of the version.
        cases hfresh : v.rows.get? key with
        | none => exact hfresh
        | some fresh =>
          have hwvalid := h.valid u w hw
          have heq := (Version.keyOf_of_get?_rows hwvalid hvalue).unique hwvalid.uri hv.uri
            (Version.keyOf_of_get?_rows hv hfresh)
          exact absurd ((h.uri u w hw).symm.trans heq) hu

end Holds

/-- One change of what is indexed. -/
inductive Operation where
  | replace (v : Version)
  | remove (uri : String)
  deriving DecidableEq

namespace Operation

def uri : Operation → String
  | .replace v => v.uri
  | .remove uri => uri

def Valid : Operation → Prop
  | .replace v => v.Valid
  | .remove uri => NulFree uri

instance : DecidablePred Valid
  | .replace v => inferInstanceAs (Decidable v.Valid)
  | .remove uri => inferInstanceAs (Decidable (NulFree uri))

def run (s : Store) : Operation → Except StoreError Store
  | .replace v => s.replaceDocument v.record v.symbols v.references v.scopes
  | .remove uri => (s.removeDocument uri).map Prod.fst

/-- What is indexed of a document after the operation. -/
def lastAfter (last : String → Option Version) (op : Operation) (uri : String) : Option Version :=
  match op with
  | .replace v => if uri = v.uri then some v else last uri
  | .remove removed => if uri = removed then none else last uri

theorem uri_nulFree {op : Operation} (h : op.Valid) : NulFree op.uri := by
  cases op with
  | replace v => exact h.uri
  | remove uri => exact h

end Operation

namespace Store

def runAll (s : Store) (ops : List Operation) : Except StoreError Store :=
  ops.foldlM Operation.run s

end Store

/-- What is indexed of a document after a run: its last version, unless it was removed since. -/
def lastVersion (ops : List Operation) : String → Option Version :=
  ops.foldl Operation.lastAfter fun _ => none

theorem rows_apply (s : Store) (batch : Batch) : (s.apply batch).rows = s.rows.apply batch := by
  unfold Store.apply
  split
  next h =>
    rw [List.isEmpty_iff.1 h]
    rfl
  next => rfl

namespace Holds
variable {s : Store} {last : String → Option Version}

/-- The record of a document is read back. -/
theorem run_document (h : Holds s.rows last) {uri : String} (huri : NulFree uri) :
    (Index.document uri).run s.rows = .ok ((last uri).map fun v => v.record.normal) := by
  have hkey : KeyOf uri (IndexPart.documents.table.key (Bytes.ofText uri)) :=
    ⟨.documents, _, rfl, rfl⟩
  have hrow (value : Bytes) : s.rows.get? (IndexPart.documents.table.key (Bytes.ofText uri)) =
      some value ↔ ∃ v, last uri = some v ∧ value = toRecord v.record := by
    rw [h.get?_of_keyOf huri hkey]
    constructor
    · rintro ⟨v, hv, hvalue⟩
      exact ⟨v, hv, (Version.enters_of_get?_rows hvalue).2⟩
    · rintro ⟨v, hv, rfl⟩
      obtain rfl := h.uri uri v hv
      refine ⟨v, hv, (Version.get?_rows_iff (p := .documents) fun value hvalue => ?_).2 ⟨rfl, rfl⟩⟩
      exact And.right hvalue
  refine (Query.run_bind_eq_ok s.rows (Query.run_get s.rows IndexPart.documents.table _)).trans ?_
  cases hlast : last uri with
  | none =>
    cases hget : s.rows.get? (IndexPart.documents.table.key (Bytes.ofText uri)) with
    | none => rfl
    | some value =>
      obtain ⟨v, hv, -⟩ := (hrow value).1 hget
      rw [hlast] at hv
      cases hv
  | some v =>
    have hrecord := ofRecord_document (h.valid uri v hlast).record
    rw [(hrow _).2 ⟨v, hlast, rfl⟩]
    simp only [hrecord]
    rfl

/-- The changes that put a version in place of the last one. -/
theorem run_replacement (v : Version) {rows : Rows} {batch : Batch}
    (h : (Index.removal v.uri).run rows = .ok batch) :
    (Index.replacement v.record v.symbols v.references v.scopes).run rows =
      .ok (batch ++ v.puts) := by
  refine (Query.run_bind_eq_ok rows h).trans ?_
  simp only [Query.run_pure, Version.puts, List.append_assoc]
  rfl

/-- An operation succeeds and changes what is indexed of its document only. -/
theorem run (h : Holds s.rows last) {op : Operation} (hop : op.Valid) :
    ∃ s', op.run s = .ok s' ∧ Holds s'.rows (op.lastAfter last) := by
  have huri := op.uri_nulFree hop
  obtain ⟨batch, hbatch, hremoves, hreach⟩ := h.run_removal huri
  have hget := h.get?_apply_removal huri hremoves hreach
  cases op with
  | replace v =>
    refine ⟨s.apply (batch ++ v.puts), ?_, ?_⟩
    · simp only [Operation.run, Store.replaceDocument, run_replacement v hbatch]
      rfl
    · rw [rows_apply]
      exact h.replace hop hget
  | remove uri =>
    refine ⟨s.apply batch, ?_, ?_⟩
    · have hremoval : (Index.removal uri).run s.rows = .ok batch := hbatch
      have hdocument := h.run_document (show NulFree uri from hop)
      simp only [Operation.run, Store.removeDocument, hdocument, hremoval]
      rfl
    · rw [rows_apply]
      exact h.remove hget

end Holds

/-- Every run succeeds, and the store holds the last versions. -/
theorem Holds.runAll {s : Store} {last : String → Option Version} (h : Holds s.rows last)
    {ops : List Operation} (hops : ∀ op ∈ ops, op.Valid) :
    ∃ s', s.runAll ops = .ok s' ∧ Holds s'.rows (ops.foldl Operation.lastAfter last) := by
  induction ops generalizing s last with
  | nil => exact ⟨s, rfl, h⟩
  | cons op rest ih =>
    obtain ⟨s₁, hrun, h₁⟩ := h.run (hops op List.mem_cons_self)
    obtain ⟨s₂, hrest, h₂⟩ := ih h₁ fun o ho => hops o (List.mem_cons_of_mem op ho)
    refine ⟨s₂, ?_, h₂⟩
    rw [Store.runAll, List.foldlM_cons, hrun]
    exact hrest

/-- A version that is the first of its store writes its own rows, whatever it holds. -/
theorem run_replace_volatile {v : Version} (hv : NulFree v.uri) :
    ∃ s, (Operation.replace v).run .volatile = .ok s ∧ s.rows = v.rows := by
  obtain ⟨batch, hbatch, hremoves, hreach⟩ := Holds.empty.run_removal hv
  have hempty : Rows.apply .empty batch = .empty := by
    refine OrderedMap.ext_get? fun key => Option.eq_none_iff_forall_ne_some.2 fun value hget => ?_
    rw [Holds.empty.get?_apply_removal hv hremoves hreach] at hget
    obtain ⟨_, _, _, h, -⟩ := hget
    cases h
  refine ⟨Store.volatile.apply (batch ++ v.puts), ?_, ?_⟩
  · simp only [Operation.run, Store.replaceDocument]
    rw [show Store.volatile.rows = .empty from rfl, Holds.run_replacement v hbatch]
    rfl
  · rw [rows_apply, Rows.apply_append, show Store.volatile.rows = .empty from rfl, hempty]
    rfl

/-- Rows are determined by the last versions of the documents. -/
theorem Holds.rows_eq {rows rows' : Rows} {last : String → Option Version} (h : Holds rows last)
    (h' : Holds rows' last) : rows = rows' :=
  OrderedMap.ext_get? fun key => Option.ext fun value => by rw [h.rows, h'.rows]

end PhpIndex
