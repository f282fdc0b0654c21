import PhpIndex.Proofs.Index.Ownership
import Mathlib.Data.List.Nodup

/-!
# What an operation depends on

An operation reads and changes the rows of its document alone. So what it makes of them is the same
in all stores that have the same rows of this document, and after several operations on different
documents each document has the rows that its own operation alone would have left.
Main statements: `Store.get?_run_congr`, `Store.get?_runAll_of_owned`,
`Store.get?_runAll_of_not_owned`.
-/
namespace PhpIndex

/-! ## Keys of the store -/

/-- Whether the key in the store is one of the document. -/
def Owned (uri : String) (key : Bytes) : Prop :=
  ∃ (p : IndexPart) (k : Bytes), key = p.table.key k ∧ p.Owns uri k

theorem owned_key {uri : String} {p : IndexPart} {k : Bytes} :
    Owned uri (p.table.key k) ↔ p.Owns uri k := by
  refine ⟨fun ⟨q, j, heq, hj⟩ => ?_, fun h => ⟨p, k, rfl, h⟩⟩
  obtain ⟨rfl, rfl⟩ := IndexPart.key_inj heq
  exact hj

theorem Owned.unique {uri uri' : String} (hu : NulFree uri) (hu' : NulFree uri') {key : Bytes}
    (h : Owned uri key) (h' : Owned uri' key) : uri = uri' := by
  obtain ⟨p, k, rfl, hk⟩ := h
  exact hk.unique hu hu' (owned_key.1 h')

namespace Rows

/-- Whether the document has the same rows in both. -/
def AgreeOn (uri : String) (rows rows' : Rows) : Prop :=
  ∀ key, Owned uri key → rows.get? key = rows'.get? key

variable {uri : String} {rows rows' : Rows}

theorem AgreeOn.refl (uri : String) (rows : Rows) : AgreeOn uri rows rows := fun _ _ => rfl

theorem AgreeOn.trans {rows'' : Rows} (h : AgreeOn uri rows rows')
    (h' : AgreeOn uri rows' rows'') : AgreeOn uri rows rows'' :=
  fun key hkey => (h key hkey).trans (h' key hkey)

/-- A scan sees the rows under the keys that begin with what it looks for. -/
theorem scan_congr {lead : Bytes} (h : ∀ key, lead <+: key → rows.get? key = rows'.get? key) :
    rows.scan lead = rows'.scan lead := by
  have hfilter : rows.filter (fun key _ => lead.isPrefixOf key) =
      rows'.filter (fun key _ => lead.isPrefixOf key) := by
    refine OrderedMap.ext_get? fun key => ?_
    rw [OrderedMap.get?_filter, OrderedMap.get?_filter]
    by_cases hkey : lead <+: key
    · rw [h key hkey]
    · have hfalse : lead.isPrefixOf key = false :=
        Bool.eq_false_iff.2 (mt List.isPrefixOf_iff_prefix.1 hkey)
      simp [hfalse]
  rw [scan_eq_filter, scan_eq_filter]
  exact congrArg OrderedMap.entries hfilter

/-- Whether the document has the same declarations in both. -/
def DeclareAlike (uri : String) (rows rows' : Rows) : Prop :=
  ∀ kind k, (IndexPart.declarations kind).Owns uri k →
    rows.get? ((IndexPart.declarations kind).table.key k) =
      rows'.get? ((IndexPart.declarations kind).table.key k)

theorem AgreeOn.declareAlike (h : AgreeOn uri rows rows') : DeclareAlike uri rows rows' :=
  fun _ _ hk => h _ (owned_key.2 hk)

theorem DeclareAlike.scan_eq (h : DeclareAlike uri rows rows') (kind : TableKind) :
    rows.scan ((IndexPart.declarations kind).table.key (joinKey [uri, ""])) =
      rows'.scan ((IndexPart.declarations kind).table.key (joinKey [uri, ""])) := by
  refine scan_congr fun key hkey => ?_
  obtain ⟨rest, rfl⟩ := hkey
  rw [Table.key, List.append_assoc]
  exact h kind _ ⟨rest, rfl⟩

theorem DeclareAlike.run_symbolsOfKind (h : DeclareAlike uri rows rows') {kind : TableKind}
    {old : List Symbol} (hold : (Index.symbolsOfKind uri kind).run rows = .ok old) :
    (Index.symbolsOfKind uri kind).run rows' = .ok old := by
  rw [Index.run_symbolsOfKind_iff] at hold ⊢
  rwa [← h.scan_eq kind]

/-- What is removed of a document depends on its declarations only. -/
theorem DeclareAlike.removal_eq (h : DeclareAlike uri rows rows') {batch batch' : Batch}
    (hbatch : (Index.removal uri).run rows = .ok batch)
    (hbatch' : (Index.removal uri).run rows' = .ok batch') : batch = batch' := by
  obtain ⟨old, hold, rfl⟩ := Store.exists_old_of_run_removal hbatch
  obtain ⟨old', hold', rfl⟩ := Store.exists_old_of_run_removal hbatch'
  have heq : old = old' := by
    funext kind
    exact Except.ok.inj ((h.run_symbolsOfKind (hold kind)).symm.trans (hold' kind))
  rw [heq]

end Rows

/-! ## One operation -/

/-- What is touched in a table has a key of the table. -/
theorem IndexPart.exists_key_of_touches {p : IndexPart} {k key : Bytes} {c : Change}
    (hc : c = .delete (p.table.key k) ∨ c = .deleteAll (p.table.key k)) (h : c.Touches key) :
    ∃ j, key = p.table.key j := by
  rcases hc with rfl | rfl
  · exact ⟨k, h⟩
  · obtain ⟨rest, rfl⟩ := h
    exact ⟨k ++ rest, List.append_assoc ..⟩

namespace Store
variable {s s' t t' : Store} {op : Operation} {uri : String} {key : Bytes}

theorem owned_of_touches_removal {rows : Rows} {batch : Batch}
    (h : (Index.removal uri).run rows = .ok batch) (hrows : rows.PlainOf uri) {c : Change}
    (hc : c ∈ batch) (htouches : c.Touches key) : Owned uri key := by
  have hkey : ∃ (p : IndexPart) (k : Bytes), key = p.table.key k := by
    obtain ⟨old, -, rfl⟩ := exists_old_of_run_removal h
    rcases List.mem_append.1 hc with hc | hc
    · obtain ⟨kind, -, hc⟩ := List.mem_flatMap.1 hc
      rcases List.mem_append.1 hc with hc | hc
      · obtain ⟨t, -, hc⟩ := List.mem_flatMap.1 hc
        rcases List.mem_cons.1 hc with rfl | hc
        · exact ⟨.names kind, IndexPart.exists_key_of_touches (.inl rfl) htouches⟩
        · obtain ⟨word, -, rfl⟩ := List.mem_map.1 hc
          exact ⟨.words kind, IndexPart.exists_key_of_touches (.inl rfl) htouches⟩
      · obtain rfl := List.mem_singleton.1 hc
        exact ⟨.declarations kind, IndexPart.exists_key_of_touches (.inr rfl) htouches⟩
    · simp only [List.mem_cons, List.not_mem_nil, or_false] at hc
      rcases hc with rfl | rfl | rfl
      · exact ⟨.references, IndexPart.exists_key_of_touches (.inr rfl) htouches⟩
      · exact ⟨.scopes, IndexPart.exists_key_of_touches (.inr rfl) htouches⟩
      · exact ⟨.documents, IndexPart.exists_key_of_touches (.inl rfl) htouches⟩
  obtain ⟨p, k, rfl⟩ := hkey
  exact owned_key.2 (owns_of_touches_removal h (fun _ => hrows) hc htouches)

theorem owned_of_touches_puts {v : Version} (hv : ∀ t ∈ v.symbols, t.Plain) {c : Change}
    (hc : c ∈ v.puts) (htouches : c.Touches key) : Owned v.uri key := by
  obtain ⟨p, k, value, rfl, henters⟩ := Version.mem_puts.1 hc
  obtain rfl : key = p.table.key k := htouches
  exact owned_key.2 (IndexPart.owns_of_enters (fun _ => hv) henters)

/-- An operation leaves what is under all other keys. -/
theorem get?_run_of_not_owned (hrun : op.run s = .ok t) (hrows : s.rows.PlainOf op.uri)
    (hop : ∀ x ∈ op.symbols, x.Plain) (hkey : ¬ Owned op.uri key) :
    t.rows.get? key = s.rows.get? key := by
  have hremoved {batch : Batch} (hbatch : (Index.removal op.uri).run s.rows = .ok batch) :
      (s.rows.apply batch).get? key = s.rows.get? key :=
    Rows.get?_apply_of_not_touches
      (fun c hc htouches => hkey (owned_of_touches_removal hbatch hrows hc htouches)) _
  cases op with
  | replace v =>
    obtain ⟨batch, hbatch, hrows'⟩ := exists_of_run_replace hrun
    have hputs : ∀ c ∈ v.puts, ¬ c.Touches key := fun c hc htouches =>
      hkey (owned_of_touches_puts hop hc htouches)
    rw [hrows', Rows.get?_apply_of_not_touches hputs, hremoved hbatch]
  | remove removed =>
    obtain ⟨batch, hbatch, hrows'⟩ := exists_of_run_remove hrun
    rw [hrows', hremoved hbatch]

theorem agreeOn_run_of_ne (hrun : op.run s = .ok t) (hrows : s.rows.Plain) (hop : op.Plain)
    (huri : NulFree uri) (hopUri : NulFree op.uri) (hne : op.uri ≠ uri) :
    Rows.AgreeOn uri t.rows s.rows := fun _ hkey =>
  get?_run_of_not_owned hrun (hrows.plainOf op.uri) hop.symbols fun hown =>
    hne (hown.unique hopUri huri hkey)

/-- In stores with the same rows of its document, an operation makes the same of each row. -/
theorem get?_run_congr (hagree : Rows.AgreeOn op.uri s.rows s'.rows) (hrun : op.run s = .ok t)
    (hrun' : op.run s' = .ok t') (hkey : s.rows.get? key = s'.rows.get? key) :
    t.rows.get? key = t'.rows.get? key := by
  cases op with
  | replace v =>
    obtain ⟨batch, hbatch, hrows⟩ := exists_of_run_replace hrun
    obtain ⟨batch', hbatch', hrows'⟩ := exists_of_run_replace hrun'
    obtain rfl := hagree.declareAlike.removal_eq hbatch hbatch'
    rw [hrows, hrows', Rows.get?_apply, Rows.get?_apply, Rows.get?_apply, Rows.get?_apply, hkey]
  | remove removed =>
    obtain ⟨batch, hbatch, hrows⟩ := exists_of_run_remove hrun
    obtain ⟨batch', hbatch', hrows'⟩ := exists_of_run_remove hrun'
    obtain rfl := hagree.declareAlike.removal_eq hbatch hbatch'
    rw [hrows, hrows', Rows.get?_apply, Rows.get?_apply, hkey]

end Store

/-! ## Regular operations -/

/-- Whether the rows of the document can be told from those of others and its records read back:
there are no zero characters in its uri and in the names of its symbols, and texts and lists of its
symbols and of its record have lengths of 32 bits. -/
def Operation.Regular (op : Operation) : Prop :=
  NulFree op.uri ∧ op.Plain ∧ ∀ v, op = .replace v → v.record.Fits

/-- What the rows have that regular operations enter. -/
structure Rows.Regular (rows : Rows) : Prop where
  plain : rows.Plain
  legible : rows.Legible
  /-- The record of a document is filed under its uri. -/
  filed : ∀ k value, rows.get? (IndexPart.documents.table.key k) = some value →
    ∃ r : DocumentRecord, NulFree r.uri ∧ r.Fits ∧ k = Bytes.ofText r.uri ∧ value = toRecord r

namespace Rows.Regular
variable {rows : Rows} {s t : Store} {op : Operation} {uri : String}

theorem empty : Rows.Regular .empty := ⟨.empty, .empty, nofun⟩

theorem run (h : s.rows.Regular) (hop : op.Regular) (hrun : op.run s = .ok t) :
    t.rows.Regular := by
  obtain ⟨huri, hplain, hrecord⟩ := hop
  constructor
  case plain => exact h.plain.run hplain hrun
  case legible =>
    intro kind k value hget
    rcases Store.entered_of_run hrun hget with ⟨v, rfl, x, hx, -, -, rfl⟩ | hold
    · exact ⟨x.normal, ofRecord_symbol (hplain x hx).1⟩
    · exact h.legible kind k value hold
  case filed =>
    intro k value hget
    rcases Store.entered_of_run hrun hget with ⟨v, rfl, rfl, rfl⟩ | hold
    · exact ⟨v.record, huri, hrecord v rfl, rfl, rfl⟩
    · exact h.filed k value hold

theorem runAll {ops : List Operation} (h : s.rows.Regular) (hops : ∀ op ∈ ops, op.Regular)
    (hrun : s.runAll ops = .ok t) : t.rows.Regular := by
  induction ops generalizing s with
  | nil =>
    cases hrun
    exact h
  | cons op rest ih =>
    obtain ⟨hop, hrest⟩ := List.forall_mem_cons.1 hops
    obtain ⟨s₁, hfirst, hlast⟩ := bind_eq_ok hrun
    exact ih (h.run hop hfirst) hrest hlast

/-- The record that stands under a uri. -/
theorem exists_record (h : rows.Regular) {value : Bytes}
    (hget : rows.get? (IndexPart.documents.table.key (Bytes.ofText uri)) = some value) :
    ∃ r : DocumentRecord, r.uri = uri ∧ NulFree uri ∧ r.Fits ∧ value = toRecord r := by
  obtain ⟨r, hnul, hfits, hk, rfl⟩ := h.filed _ _ hget
  obtain rfl := Bytes.ofText_inj hk
  exact ⟨r, rfl, hnul, hfits, rfl⟩

theorem run_document (h : rows.Regular) (uri : String) :
    (Index.document uri).run rows =
      .ok ((rows.get? (IndexPart.documents.table.key (Bytes.ofText uri))).bind
        fun value => (ofRecord value).toOption) := by
  refine (Query.run_bind_eq_ok rows (Query.run_get rows IndexPart.documents.table _)).trans ?_
  cases hget : rows.get? (IndexPart.documents.table.key (Bytes.ofText uri)) with
  | none => rfl
  | some value =>
    obtain ⟨r, -, -, hfits, rfl⟩ := h.exists_record hget
    simp only [Option.bind_some, ofRecord_document hfits]
    rfl

/-- Every operation succeeds. -/
theorem exists_run (h : s.rows.Regular) (op : Operation) : ∃ t, op.run s = .ok t := by
  cases op with
  | replace v => exact h.legible.exists_run_replace v
  | remove removed =>
    obtain ⟨batch, hbatch⟩ := h.legible.run_removal removed
    refine ⟨s.apply batch, ?_⟩
    simp only [Operation.run, Store.removeDocument, h.run_document, hbatch]
    rfl

end Rows.Regular

/-- Whether the rows are what regular operations leave of an empty store. -/
def Rows.Reached (rows : Rows) : Prop :=
  ∃ ops s, (∀ op ∈ ops, op.Regular) ∧ Store.volatile.runAll ops = .ok s ∧ s.rows = rows

theorem Rows.Reached.regular {rows : Rows} (h : rows.Reached) : rows.Regular := by
  obtain ⟨ops, s, hops, hrun, rfl⟩ := h
  exact Rows.Regular.runAll (s := .volatile) .empty hops hrun

/-! ## Rows that operations lead to -/

/-- Whether rows come from others by operations of a kind. -/
inductive Rows.LeadsTo (allowed : Operation → Prop) (rows : Rows) : Rows → Prop
  | refl : LeadsTo allowed rows rows
  | step {s t : Store} {op : Operation} (hfront : LeadsTo allowed rows s.rows)
      (hop : allowed op) (hrun : op.run s = .ok t) : LeadsTo allowed rows t.rows

namespace Rows.LeadsTo
variable {allowed more : Operation → Prop} {rows rows' rows'' : Rows} {uri : String}

theorem of_run {s t : Store} {op : Operation} (hop : allowed op) (hrun : op.run s = .ok t) :
    LeadsTo allowed s.rows t.rows := refl.step hop hrun

theorem trans (h : LeadsTo allowed rows rows') (h' : LeadsTo allowed rows' rows'') :
    LeadsTo allowed rows rows'' := by
  induction h' with
  | refl => exact h
  | step _ hop hrun ih => exact ih.step hop hrun

theorem mono (h : LeadsTo allowed rows rows') (hmore : ∀ op, allowed op → more op) :
    LeadsTo more rows rows' := by
  induction h with
  | refl => exact refl
  | step _ hop hrun ih => exact ih.step (hmore _ hop) hrun

theorem plain (h : LeadsTo allowed rows rows') (hrows : rows.Plain)
    (hplain : ∀ op, allowed op → op.Plain) : rows'.Plain := by
  induction h with
  | refl => exact hrows
  | step _ hop hrun ih => exact ih.run (hplain _ hop) hrun

theorem regular (h : LeadsTo allowed rows rows') (hrows : rows.Regular)
    (hregular : ∀ op, allowed op → op.Regular) : rows'.Regular := by
  induction h with
  | refl => exact hrows
  | step _ hop hrun ih => exact ih.run (hregular _ hop) hrun

/-- The rows of a document stay if no operation is on it. -/
theorem get?_of_others (h : LeadsTo allowed rows rows')
    (hothers : ∀ op, allowed op → NulFree op.uri ∧ op.uri ≠ uri) (huri : NulFree uri)
    {p : IndexPart} {k : Bytes} (hk : p.Owns uri k)
    (hplain : p.IsWords → rows.Plain ∧ ∀ op, allowed op → op.Plain) :
    rows'.get? (p.table.key k) = rows.get? (p.table.key k) := by
  induction h with
  | refl => rfl
  | @step s t op hfront hop hrun ih =>
    obtain ⟨hopUri, hne⟩ := hothers op hop
    refine (Store.get?_of_run hrun (fun hown => hne (hown.unique hopUri huri hk))
      fun hp => ?_).trans ih
    exact ⟨hfront.plain (hplain hp).1 (hplain hp).2, (hplain hp).2 op hop⟩

/-- What is under the key of no document that is operated on stays. -/
theorem get?_of_not_owned (h : LeadsTo allowed rows rows') (hrows : rows.Regular)
    (hregular : ∀ op, allowed op → op.Regular) {key : Bytes}
    (hkey : ∀ op, allowed op → ¬ Owned op.uri key) : rows'.get? key = rows.get? key := by
  induction h with
  | refl => rfl
  | @step s t op hfront hop hrun ih =>
    have hplain := (hfront.regular hrows hregular).plain
    have hnames := (hregular op hop).2.1.symbols
    exact (Store.get?_run_of_not_owned hrun (hplain.plainOf op.uri) hnames (hkey op hop)).trans ih

theorem agreeOn (h : LeadsTo allowed rows rows') (hrows : rows.Regular)
    (hregular : ∀ op, allowed op → op.Regular) (hothers : ∀ op, allowed op → op.uri ≠ uri)
    (huri : NulFree uri) : AgreeOn uri rows' rows := by
  rintro key ⟨p, k, rfl, hk⟩
  exact h.get?_of_others (fun op hop => ⟨(hregular op hop).1, hothers op hop⟩) huri hk
    fun _ => ⟨hrows.plain, fun op hop => (hregular op hop).2.1⟩

end Rows.LeadsTo

/-! ## Operations on different documents -/

namespace Store
variable {s t : Store} {ops : List Operation} {key : Bytes}

/-- A run leaves what is under the keys of no document of its operations. -/
theorem get?_runAll_of_not_owned (hrows : s.rows.Regular) (hops : ∀ op ∈ ops, op.Regular)
    (hrun : s.runAll ops = .ok t) (hkey : ∀ op ∈ ops, ¬ Owned op.uri key) :
    t.rows.get? key = s.rows.get? key := by
  induction ops generalizing s with
  | nil =>
    cases hrun
    rfl
  | cons op rest ih =>
    obtain ⟨hop, hrest⟩ := List.forall_mem_cons.1 hops
    obtain ⟨hfree, hothers⟩ := List.forall_mem_cons.1 hkey
    obtain ⟨s₁, hfirst, hlast⟩ := bind_eq_ok hrun
    rw [ih (hrows.run hop hfirst) hrest hlast hothers,
      get?_run_of_not_owned hfirst (hrows.plain.plainOf _) hop.2.1.symbols hfree]

/-- Where no two operations are on one document, each leaves of its own what it would leave alone,
whatever the others do before and after it. -/
theorem get?_runAll_of_owned (hrows : s.rows.Regular) (hops : ∀ op ∈ ops, op.Regular)
    (hdistinct : (ops.map Operation.uri).Nodup) (hrun : s.runAll ops = .ok t) {op : Operation}
    (hmem : op ∈ ops) {alone : Store} (halone : op.run s = .ok alone) (hkey : Owned op.uri key) :
    t.rows.get? key = alone.rows.get? key := by
  induction ops generalizing s alone with
  | nil => cases hmem
  | cons first rest ih =>
    obtain ⟨hfirst, hrest⟩ := List.forall_mem_cons.1 hops
    obtain ⟨hnot, hdistinct⟩ := List.nodup_cons.1 hdistinct
    obtain ⟨s₁, hrun₁, hlast⟩ := bind_eq_ok hrun
    have hrows₁ := hrows.run hfirst hrun₁
    rcases List.mem_cons.1 hmem with rfl | hmem
    · obtain rfl : s₁ = alone := Except.ok.inj (hrun₁.symm.trans halone)
      refine get?_runAll_of_not_owned hrows₁ hrest hlast fun other hother hown => hnot ?_
      have heq := hown.unique (hrest other hother).1 hfirst.1 hkey
      exact heq ▸ List.mem_map_of_mem hother
    · have hop := hrest op hmem
      have hne : first.uri ≠ op.uri := fun heq => hnot (heq ▸ List.mem_map_of_mem hmem)
      obtain ⟨alone₁, halone₁⟩ := hrows₁.exists_run op
      have hagree := agreeOn_run_of_ne hrun₁ hrows.plain hfirst.2.1 hop.1 hfirst.1 hne
      rw [ih hrows₁ hrest hdistinct hlast hmem halone₁]
      exact get?_run_congr hagree halone₁ halone (hagree key hkey)

end Store
end PhpIndex
