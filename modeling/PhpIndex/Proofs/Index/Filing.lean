import PhpIndex.Proofs.Index.Locality
import PhpIndex.Proofs.Text.Lossy

/-!
# What is filed, and when

The documents of an index are listed from the keys of their records. A record tells when its
document was indexed; a store that was filled at another time, or in another order, differs in
nothing else, and the next removal makes the same of it.
Main statements: `Rows.run_uris`, `Rows.Filed.mem_documentUris`, `Rows.SameButTime.run_remove`,
`Store.sameButTime_of_run_replace`.
-/
namespace PhpIndex

/-! ## The list of documents -/

/-- The key of the record of a document. -/
def recordKey (uri : String) : Bytes := IndexPart.documents.table.key (Bytes.ofText uri)

theorem owned_recordKey (uri : String) : Owned uri (recordKey uri) := owned_key.2 rfl

namespace Rows
variable {rows rows' : Rows} {uri : String}

/-- Whether the document is indexed. -/
def HasDocument (rows : Rows) (uri : String) : Prop := (rows.get? (recordKey uri)).isSome

instance (rows : Rows) (uri : String) : Decidable (rows.HasDocument uri) :=
  inferInstanceAs (Decidable (Option.isSome _ = true))

/-- The documents by the keys of their records. -/
def documentUris (rows : Rows) : List String :=
  (rows.keys.filter fun key => (IndexPart.documents.table.key []).isPrefixOf key).map fun key =>
    Bytes.toTextLossy (key.drop IndexPart.documents.table.lead.length)

theorem run_uris (rows : Rows) : Index.uris.run rows = .ok rows.documentUris := by
  refine (Query.run_bind_eq_ok rows (Query.run_scan rows IndexPart.documents.table [])).trans ?_
  rw [Query.run_pure, scan_eq_filter, documentUris, OrderedMap.keys, List.filter_map,
    List.map_map, List.map_map]
  rfl

/-- Whether every record is filed under a uri without zero characters. -/
def Filed (rows : Rows) : Prop :=
  ∀ k value, rows.get? (IndexPart.documents.table.key k) = some value →
    ∃ uri, NulFree uri ∧ k = Bytes.ofText uri

theorem Regular.isFiled (h : rows.Regular) : rows.Filed := fun k value hget => by
  obtain ⟨r, hnul, -, hk, -⟩ := h.filed k value hget
  exact ⟨r.uri, hnul, hk⟩

theorem LeadsTo.filed {allowed : Operation → Prop} (h : LeadsTo allowed rows rows')
    (hrows : rows.Filed) (hnul : ∀ op, allowed op → NulFree op.uri) : rows'.Filed := by
  induction h with
  | refl => exact hrows
  | step _ hop hrun ih =>
    intro k value hget
    rcases Store.entered_of_run hrun hget with ⟨v, rfl, rfl, -⟩ | hold
    · exact ⟨v.uri, hnul _ hop, rfl⟩
    · exact ih k value hold

/-- Every key that is listed is that of a record. -/
theorem Filed.exists_of_mem_keys (h : rows.Filed) {key : Bytes}
    (hkey : key ∈ rows.keys.filter fun key => (IndexPart.documents.table.key []).isPrefixOf key) :
    ∃ uri, NulFree uri ∧ key = recordKey uri ∧ rows.HasDocument uri ∧
      Bytes.toTextLossy (key.drop IndexPart.documents.table.lead.length) = uri := by
  obtain ⟨hmem, hlead⟩ := List.mem_filter.1 hkey
  obtain ⟨value, hentry⟩ := OrderedMap.mem_keys.1 hmem
  have hget := (OrderedMap.get?_eq_some_iff rows key value).2 hentry
  obtain ⟨k, rfl⟩ := List.isPrefixOf_iff_prefix.1 hlead
  have hk : IndexPart.documents.table.key [] ++ k = IndexPart.documents.table.key k := by
    rw [Table.key, List.append_nil, Table.key]
  rw [hk] at hget ⊢
  obtain ⟨uri, hnul, rfl⟩ := h k value hget
  refine ⟨uri, hnul, rfl, ?_, ?_⟩
  · rw [HasDocument, recordKey, hget]
    rfl
  · rw [Table.key, List.drop_left, Bytes.toTextLossy_ofText]

theorem Filed.mem_documentUris (h : rows.Filed) :
    uri ∈ rows.documentUris ↔ rows.HasDocument uri := by
  constructor
  · intro huri
    obtain ⟨key, hkey, rfl⟩ := List.mem_map.1 huri
    obtain ⟨uri, -, -, hstored, htext⟩ := h.exists_of_mem_keys hkey
    rwa [htext]
  · intro hstored
    obtain ⟨value, hget⟩ := Option.isSome_iff_exists.1 hstored
    refine List.mem_map.2 ⟨recordKey uri, List.mem_filter.2 ⟨?_, ?_⟩, ?_⟩
    · exact OrderedMap.mem_keys.2 ⟨value, (OrderedMap.get?_eq_some_iff rows _ _).1 hget⟩
    · refine List.isPrefixOf_iff_prefix.2 ⟨Bytes.ofText uri, ?_⟩
      rw [recordKey, Table.key, Table.key, List.append_nil]
    · rw [recordKey, Table.key, List.drop_left, Bytes.toTextLossy_ofText]

theorem Filed.nulFree_of_hasDocument (h : rows.Filed) (hstored : rows.HasDocument uri) :
    NulFree uri := by
  obtain ⟨value, hget⟩ := Option.isSome_iff_exists.1 hstored
  obtain ⟨uri', hnul, hk⟩ := h _ _ hget
  obtain rfl := Bytes.ofText_inj hk
  exact hnul

theorem Filed.regular_remove (h : rows.Filed) (hstored : rows.HasDocument uri) :
    (Operation.remove uri).Regular := ⟨h.nulFree_of_hasDocument hstored, trivial, nofun⟩

theorem Filed.nodup_documentUris (h : rows.Filed) : rows.documentUris.Nodup := by
  refine List.Nodup.map_on (fun key hkey key' hkey' heq => ?_)
    (rows.nodup_keys.filter _)
  obtain ⟨uri, -, rfl, -, htext⟩ := h.exists_of_mem_keys hkey
  obtain ⟨uri', -, rfl, -, htext'⟩ := h.exists_of_mem_keys hkey'
  rw [← htext, ← htext', heq]

/-- What is read of a record depends on its row only. -/
theorem run_document_congr (h : rows.get? (recordKey uri) = rows'.get? (recordKey uri)) :
    (Index.document uri).run rows = (Index.document uri).run rows' := by
  refine (Query.run_bind_eq_ok rows (Query.run_get rows IndexPart.documents.table _)).trans ?_
  refine .trans ?_
    (Query.run_bind_eq_ok rows' (Query.run_get rows' IndexPart.documents.table _)).symm
  have hrow : rows.get? (IndexPart.documents.table.key (Bytes.ofText uri)) =
      rows'.get? (IndexPart.documents.table.key (Bytes.ofText uri)) := h
  rw [hrow]
  cases rows'.get? (IndexPart.documents.table.key (Bytes.ofText uri)) with
  | none => rfl
  | some value =>
    simp only
    cases ofRecord (α := DocumentRecord) value <;> rfl

/-- To remove a document that is indexed succeeds, and tells that it was. -/
theorem Regular.exists_removeDocument {s : Store} (h : s.rows.Regular)
    (hstored : s.rows.HasDocument uri) : ∃ t, (Operation.remove uri).run s = .ok t ∧
      s.removeDocument uri = .ok (t, true) := by
  obtain ⟨value, hget⟩ := Option.isSome_iff_exists.1 hstored
  obtain ⟨r, -, -, hfits, rfl⟩ := h.exists_record hget
  obtain ⟨batch, hbatch⟩ := h.legible.run_removal uri
  have hremove : s.removeDocument uri = .ok (s.apply batch, true) := by
    have hread := h.run_document uri
    rw [show s.rows.get? (IndexPart.documents.table.key (Bytes.ofText uri)) = _ from hget,
      Option.bind_some, ofRecord_document hfits] at hread
    simp only [Store.removeDocument, hread, hbatch]
    rfl
  refine ⟨s.apply batch, ?_, hremove⟩
  rw [Operation.run, hremove]
  rfl

/-- Which documents are listed depends on the keys only. -/
theorem documentUris_congr (h : ∀ key, (rows.get? key).isSome = (rows'.get? key).isSome) :
    rows.documentUris = rows'.documentUris := by
  have hmaps : rows.mapValues (fun _ => ()) = rows'.mapValues fun _ => () := by
    refine OrderedMap.ext_get? fun key => ?_
    rw [OrderedMap.get?_mapValues, OrderedMap.get?_mapValues]
    have hkey := h key
    cases hget : rows.get? key <;> cases hget' : rows'.get? key <;> simp_all
  have hkeys (m : Rows) : m.keys = (m.mapValues fun _ => ()).keys := by
    simp [OrderedMap.keys, OrderedMap.mapValues]
  rw [documentUris, documentUris, hkeys rows, hkeys rows', hmaps]

/-! ## The time of indexing -/

/-- Whether there is the same under a key, except for when a document was indexed. -/
def SameAt (rows rows' : Rows) (key : Bytes) : Prop :=
  rows.get? key = rows'.get? key ∨ ∃ (r : DocumentRecord) (time : Int64),
    key = recordKey r.uri ∧ rows.get? key = some (toRecord r) ∧
      rows'.get? key = some (toRecord { r with indexedAt := time })

/-- Whether the rows are the same, except for when documents were indexed. -/
def SameButTime (rows rows' : Rows) : Prop := ∀ key, SameAt rows rows' key

namespace SameButTime

theorem isSome_eq (h : SameButTime rows rows') (key : Bytes) :
    (rows.get? key).isSome = (rows'.get? key).isSome := by
  rcases h key with heq | ⟨r, time, -, hget, hget'⟩
  · rw [heq]
  · rw [hget, hget']
    rfl

theorem documentUris_eq (h : SameButTime rows rows') : rows.documentUris = rows'.documentUris :=
  documentUris_congr h.isSome_eq

theorem declareAlike (h : SameButTime rows rows') (uri : String) : DeclareAlike uri rows rows' := by
  intro kind k _
  rcases h ((IndexPart.declarations kind).table.key k) with heq | ⟨r, _, hkey, -⟩
  · exact heq
  · obtain ⟨hpart, -⟩ := IndexPart.key_inj (p := .declarations kind) (q := .documents) hkey
    cases hpart

/-- A removal reads no record, so the rows that it leaves are the same as well. -/
theorem run_remove {s s' t t' : Store} (h : SameButTime s.rows s'.rows)
    (hrun : (Operation.remove uri).run s = .ok t) (hrun' : (Operation.remove uri).run s' = .ok t') :
    SameButTime t.rows t'.rows := by
  obtain ⟨batch, hbatch, hrows⟩ := Store.exists_of_run_remove hrun
  obtain ⟨batch', hbatch', hrows'⟩ := Store.exists_of_run_remove hrun'
  obtain rfl := (h.declareAlike uri).removal_eq hbatch hbatch'
  have hremovals := (Store.of_run_removal hbatch).1
  intro key
  rw [SameAt, hrows, hrows', get?_apply_removals hremovals, get?_apply_removals hremovals]
  split
  · exact .inl rfl
  · exact h key

/-- To remove several documents keeps the rows the same as well. -/
theorem runAll_removals {uris : List String} {s s' t t' : Store} (h : SameButTime s.rows s'.rows)
    (hrun : s.runAll (uris.map .remove) = .ok t) (hrun' : s'.runAll (uris.map .remove) = .ok t') :
    SameButTime t.rows t'.rows := by
  induction uris generalizing s s' with
  | nil =>
    cases hrun
    cases hrun'
    exact h
  | cons uri rest ih =>
    obtain ⟨s₁, hfirst, hlast⟩ := bind_eq_ok hrun
    obtain ⟨s₁', hfirst', hlast'⟩ := bind_eq_ok hrun'
    exact ih (h.run_remove hfirst hfirst') hlast hlast'

end SameButTime
end Rows

/-- The version at another time. -/
def Version.timed (v : Version) (time : Int64) : Version :=
  { v with record := { v.record with indexedAt := time } }

namespace Store
variable {s t t' : Store} {v : Version}

/-- The record is what a replacement enters last. -/
theorem get?_replace {batch : Batch} (hbatch : (Index.removal v.uri).run s.rows = .ok batch)
    (hrun : (Operation.replace v).run s = .ok t) (key : Bytes) :
    t.rows.get? key = if key = recordKey v.uri then some (toRecord v.record) else
      ((s.rows.apply batch).apply (Index.symbolChanges v.uri v.symbols ++
        Index.referenceChanges v.uri v.references ++ Index.scopeChanges v.uri v.scopes)).get?
          key := by
  obtain ⟨batch', hbatch', hrows⟩ := exists_of_run_replace hrun
  obtain rfl := Except.ok.inj (hbatch.symm.trans hbatch')
  rw [hrows, Version.puts, Rows.apply_append]
  exact Rows.get?_make _ (documentTable.put v.record) key

theorem sameButTime_of_run_replace {time : Int64} (hrun : (Operation.replace v).run s = .ok t)
    (hrun' : (Operation.replace (v.timed time)).run s = .ok t') :
    Rows.SameButTime t.rows t'.rows := by
  obtain ⟨batch, hbatch, -⟩ := exists_of_run_replace hrun
  intro key
  rw [Rows.SameAt, get?_replace hbatch hrun, get?_replace (v := v.timed time) hbatch hrun']
  by_cases hkey : key = recordKey v.uri
  · refine .inr ⟨v.record, time, hkey, if_pos hkey, if_pos hkey⟩
  · exact .inl ((if_neg hkey).trans (if_neg hkey).symm)

/-- Every operation makes changes, so that its store is to be saved. -/
theorem dirty_of_run {op : Operation} (hrun : op.run s = .ok t) :
    t.dirty = true ∧ t.persistent = s.persistent := by
  have hbatch : ∃ batch : Batch, batch.isEmpty = false ∧ t = s.apply batch := by
    cases op with
    | replace v =>
      obtain ⟨removal, hremoval, -⟩ := exists_of_run_replace hrun
      rw [Operation.run, replaceDocument, Holds.run_replacement v hremoval] at hrun
      cases hrun
      exact ⟨removal ++ v.puts, by simp [Version.puts], rfl⟩
    | remove removed =>
      obtain ⟨removal, hremoval, -⟩ := exists_of_run_remove hrun
      obtain ⟨old, -, rfl⟩ := exists_old_of_run_removal hremoval
      obtain ⟨⟨t', existed⟩, hremove, rfl⟩ := map_eq_ok hrun
      obtain ⟨record?, -, hrest⟩ := bind_eq_ok hremove
      rw [hremoval] at hrest
      cases hrest
      exact ⟨_, by simp, rfl⟩
  obtain ⟨batch, hchanges, rfl⟩ := hbatch
  rw [apply, hchanges]
  exact ⟨rfl, rfl⟩

theorem dirty_of_runAll {ops : List Operation} (hrun : s.runAll ops = .ok t) :
    t.dirty = (s.dirty || !ops.isEmpty) ∧ t.persistent = s.persistent := by
  induction ops generalizing s with
  | nil =>
    cases hrun
    exact ⟨(Bool.or_false _).symm, rfl⟩
  | cons op rest ih =>
    obtain ⟨s₁, hfirst, hlast⟩ := bind_eq_ok hrun
    obtain ⟨hdirty, hpersistent⟩ := ih hlast
    obtain ⟨hdirty₁, hpersistent₁⟩ := dirty_of_run hfirst
    refine ⟨?_, hpersistent.trans hpersistent₁⟩
    rw [hdirty, hdirty₁, Bool.true_or, List.isEmpty_cons, Bool.not_false, Bool.or_true]

theorem not_hasDocument_of_run_remove {uri : String}
    (hrun : (Operation.remove uri).run s = .ok t) : ¬ t.rows.HasDocument uri := by
  obtain ⟨batch, hbatch, hrows⟩ := exists_of_run_remove hrun
  obtain ⟨hremovals, hclear⟩ := of_run_removal hbatch
  have hgone : t.rows.get? (recordKey uri) = none := by
    rw [hrows, Rows.get?_apply_removals hremovals]
    exact if_pos (hclear .documents (Bytes.ofText uri) rfl)
  rw [Rows.HasDocument, hgone]
  exact Bool.false_ne_true

theorem hasDocument_of_run_replace {uri : String} (hrun : (Operation.replace v).run s = .ok t)
    (hstored : s.rows.HasDocument uri) : t.rows.HasDocument uri := by
  by_cases huri : uri = v.uri
  · obtain ⟨batch, hbatch, -⟩ := exists_of_run_replace hrun
    rw [Rows.HasDocument, get?_replace hbatch hrun, if_pos (congrArg recordKey huri)]
    rfl
  · have hkept := get?_of_run (p := .documents) (k := Bytes.ofText uri) hrun
      (fun hown => huri (Bytes.ofText_inj hown)) nofun
    rw [Rows.HasDocument, recordKey, hkept]
    exact hstored

end Store
end PhpIndex
