import PhpIndex.Proofs.Index.Search

/-!
# Open documents and stored ones

An open document hides what is stored under its uri and is searched by tests of its symbols, a
stored one is found through its rows. Both list the same symbols at the same places, document by
document, so that opening a document answers lookups as storing it does, up to what a record
keeps of a symbol.
Main statements: `opens_as_stored`, `opens_unlike_stored`.
-/
namespace PhpIndex

namespace Document

/-- What is stored of a document. -/
def version (d : Document) (indexedAt : Int64) : Version :=
  ⟨d.record indexedAt, d.symbols, d.references, d.scopes⟩

/-- A document with these symbols and nothing else. -/
def ofSymbols (uri : String) (symbols : List Symbol) : Document :=
  ⟨⟨.empty, .empty .empty, [], symbols, []⟩, uri, "", 0⟩

theorem mem_symbolsOfKind {d : Document} {kind : TableKind} {s : Symbol} :
    s ∈ d.symbolsOfKind kind ↔ s ∈ d.symbols ∧ s.table? = some kind := by
  rw [symbolsOfKind, List.mem_filter, decide_eq_true_eq]

end Document

/-- Whether a version is one of the document, whenever that was changed and indexed. -/
structure Version.IsOf (v : Version) (d : Document) : Prop where
  uri : v.uri = d.uri
  imports : v.record.imports = d.imports
  globals : v.record.globals = d.globals
  symbols : v.symbols = d.symbols
  references : v.references = d.references
  scopes : v.scopes = d.scopes

theorem Document.isOf_version (d : Document) (indexedAt : Int64) : (d.version indexedAt).IsOf d :=
  ⟨rfl, rfl, rfl, rfl, rfl, rfl⟩

theorem Version.IsOf.location_normal {v : Version} {d : Document} (hv : v.IsOf d) (h : v.Located)
    {s : Symbol} (hs : s ∈ d.symbols) :
    s.normal.location = s.location ∧ s.location.uri = d.uri := by
  rw [← hv.uri]
  exact h.location_normal (hv.symbols ▸ hs)

/-- A symbol of the document as it is read back where it is stored, and any other as it is. -/
def Symbol.asStored (uri : String) (s : Symbol) : Symbol :=
  if s.location.uri = uri then s.normal else s

theorem Symbol.asStored_of_ne {uri : String} {s : Symbol} (h : s.location.uri ≠ uri) :
    s.asStored uri = s := if_neg h

theorem Symbol.map_asStored_of_ne {uri : String} {symbols : List Symbol}
    (h : ∀ s ∈ symbols, s.location.uri ≠ uri) : symbols.map (asStored uri) = symbols := by
  rw [List.map_congr_left fun s hs => asStored_of_ne (h s hs)]
  exact List.map_id' symbols

theorem Symbol.ofUri_map {f : Symbol → Symbol} {symbols : List Symbol} (uri : String)
    (h : ∀ s ∈ symbols, (f s).location = s.location) :
    ofUri uri (symbols.map f) = (ofUri uri symbols).map f := by
  rw [ofUri, List.filter_map, ofUri]
  refine congrArg _ (List.filter_congr fun s hs => ?_)
  rw [Function.comp_apply, h s hs]

namespace OpenDocuments
variable {o : OpenDocuments} {kind : TableKind} {keep : Symbol → Bool}

/-- Whether keys can be made of the uris, and the symbols of a document name its uri. -/
structure Valid (o : OpenDocuments) : Prop where
  nulFree : ∀ e ∈ o.entries, NulFree e.1
  uri : ∀ e ∈ o.entries, ∀ s ∈ e.2.symbols, s.location.uri = e.1

/-- The open documents when one more is opened. -/
def opening (o : OpenDocuments) (d : Document) : OpenDocuments := o.insert d.uri d

theorem Valid.opening (h : o.Valid) {d : Document} (huri : NulFree d.uri)
    (hd : ∀ s ∈ d.symbols, s.location.uri = d.uri) : (o.opening d).Valid := by
  constructor
  case nulFree =>
    intro e he
    rcases OrderedMap.mem_insertEntry he with rfl | he
    · exact huri
    · exact h.nulFree e he
  case uri =>
    intro e he
    rcases OrderedMap.mem_insertEntry he with rfl | he
    · exact hd
    · exact h.uri e he

/-- How many symbols there are in the open documents. -/
def declared (o : OpenDocuments) : Nat := (o.entries.flatMap fun e => e.2.symbols).length

theorem length_symbols_le (o : OpenDocuments) (kind : TableKind) (keep : Symbol → Bool) :
    (o.symbols kind keep).length ≤ o.declared := by
  have hfilter : o.symbols kind keep =
      ((o.entries.flatMap fun e => e.2.symbols).filter fun s => s.table? = some kind).filter
        keep := by
    rw [List.filter_flatMap, List.filter_flatMap]
    rfl
  rw [hfilter]
  exact Nat.le_trans (List.length_filter_le _ _) (List.length_filter_le _ _)

/-- The symbols of the open documents that are of one document are those of its buffer. -/
theorem ofUri_symbols (h : o.Valid) (uri : String) :
    Symbol.ofUri uri (o.symbols kind keep) =
      (o.get? uri).elim [] fun d => (d.symbolsOfKind kind).filter keep := by
  have huri {e : String × Document} (he : e ∈ o.entries) {s : Symbol}
      (hs : s ∈ (e.2.symbolsOfKind kind).filter keep) : s.location.uri = e.1 :=
    h.uri e he s (Document.mem_symbolsOfKind.1 (List.mem_filter.1 hs).1).1
  rw [Symbol.ofUri, symbols, List.filter_flatMap, OrderedMap.flatMap_entries uri]
  · cases hget : o.get? uri with
    | none => rfl
    | some d =>
      refine List.filter_eq_self.2 fun s hs => decide_eq_true ?_
      exact huri ((OrderedMap.get?_eq_some_iff _ _ _).1 hget) hs
  · intro e he hne
    refine List.filter_eq_nil_iff.2 fun s hs => ?_
    rw [huri he hs, decide_eq_true_eq]
    exact hne

/-- What is merged: the stored symbols of documents that are not open, and the others behind. -/
def layers (o : OpenDocuments) (stored opened : List Symbol) : List Symbol :=
  stored.filter (fun s => !o.contains s.location.uri) ++ opened

theorem merge_eq (o : OpenDocuments) (stored opened : List Symbol) :
    o.merge stored opened = Symbol.candidates (o.layers stored opened) := rfl

/-- Of a document there is what its buffer has, and if there is none what is stored of it. -/
theorem ofUri_layers (h : o.Valid) (stored : List Symbol) (uri : String) :
    Symbol.ofUri uri (o.layers stored (o.symbols kind keep)) =
      (o.get? uri).elim (Symbol.ofUri uri stored) fun d =>
        (d.symbolsOfKind kind).filter keep := by
  have hstored : Symbol.ofUri uri (stored.filter fun s => !o.contains s.location.uri) =
      if o.contains uri then [] else Symbol.ofUri uri stored := by
    rw [Symbol.ofUri, List.filter_filter]
    split
    next hopen =>
      refine List.filter_eq_nil_iff.2 fun s _ hs => ?_
      rw [Bool.and_eq_true, decide_eq_true_eq] at hs
      rw [hs.1, hopen] at hs
      exact absurd hs.2 (by decide)
    next hclosed =>
      refine List.filter_congr fun s _ => ?_
      by_cases hs : s.location.uri = uri
      · rw [Bool.not_eq_true] at hclosed
        simp [hs, hclosed]
      · simp [hs]
  rw [layers, Symbol.ofUri, List.filter_append]
  rw [show List.filter _ (o.symbols kind keep) = _ from ofUri_symbols h uri]
  rw [show List.filter _ (stored.filter _) = _ from hstored, OrderedMap.contains]
  cases o.get? uri with
  | none => exact List.append_nil _
  | some d => rfl

theorem length_merge_le (o : OpenDocuments) (stored : List Symbol) (kind : TableKind)
    (keep : Symbol → Bool) :
    (o.merge stored (o.symbols kind keep)).length ≤ stored.length + o.declared := by
  refine Nat.le_trans (Symbol.length_candidates_le _) ?_
  rw [List.length_append]
  exact Nat.add_le_add (List.length_filter_le _ _) (o.length_symbols_le kind keep)

theorem layers_of_isEmpty (h : o.isEmpty) (found : List Symbol) (kind : TableKind)
    (keep : Symbol → Bool) : o.layers found (o.symbols kind keep) = found := by
  have hentries : o.entries = [] := List.isEmpty_iff.1 h
  have hclosed (uri : String) : o.contains uri = false := by
    rw [OrderedMap.contains, OrderedMap.get?, hentries]
    rfl
  rw [layers, symbols, hentries]
  simp [hclosed]

/-- With no document open a list is merged as it is. -/
theorem merge_of_isEmpty (h : o.isEmpty) {found : List Symbol} {wanted : Symbol → Prop}
    (hfound : Lists found wanted) (kind : TableKind) (keep : Symbol → Bool) :
    o.merge found (o.symbols kind keep) = found := by
  rw [merge_eq, layers_of_isEmpty h, Symbol.candidates_eq_self hfound.ordered hfound.nodup]

section Opening
variable {v : Version} {d : Document} (hv : v.IsOf d) (ho : o.Valid) (huri : NulFree d.uri)
  (hd : v.Located)
include hv ho huri hd

/-- What is merged of a document that is open are its symbols. -/
theorem ofUri_opening_self (stored : List Symbol) :
    Symbol.ofUri d.uri ((o.opening d).layers stored ((o.opening d).symbols kind keep)) =
      (d.symbolsOfKind kind).filter keep := by
  have hopening := ho.opening huri fun s hs => (hv.location_normal hd hs).2
  rw [ofUri_layers hopening, opening, OrderedMap.get?_insert, if_pos rfl]
  rfl

theorem ofUri_opening_of_ne {uri : String} (hne : uri ≠ d.uri) (stored : List Symbol) :
    Symbol.ofUri uri ((o.opening d).layers stored ((o.opening d).symbols kind keep)) =
      (o.get? uri).elim (Symbol.ofUri uri stored) fun d =>
        (d.symbolsOfKind kind).filter keep := by
  have hopening := ho.opening huri fun s hs => (hv.location_normal hd hs).2
  rw [ofUri_layers hopening, opening, OrderedMap.get?_insert, if_neg hne]

theorem mem_of_mem_opening {stored : List Symbol} {s : Symbol}
    (hs : s ∈ (o.opening d).layers stored ((o.opening d).symbols kind keep))
    (hsuri : s.location.uri = d.uri) : s ∈ d.symbols ∧ s.table? = some kind := by
  have hs := Symbol.mem_ofUri.2 ⟨hs, hsuri⟩
  rw [ofUri_opening_self hv ho huri hd] at hs
  exact Document.mem_symbolsOfKind.1 (List.mem_filter.1 hs).1

/-- A symbol is listed at its place as it is read back as well. -/
theorem listed_asStored {stored : List Symbol} {s : Symbol}
    (hs : s ∈ (o.opening d).layers stored ((o.opening d).symbols kind keep)) :
    (s.asStored d.uri).location = s.location ∧ (s.asStored d.uri).name = s.name := by
  by_cases hsuri : s.location.uri = d.uri
  · rw [Symbol.asStored, if_pos hsuri]
    have hmem := (mem_of_mem_opening hv ho huri hd hs hsuri).1
    exact ⟨(hv.location_normal hd hmem).1, Symbol.name_normal s⟩
  · rw [Symbol.asStored_of_ne hsuri]
    exact ⟨rfl, rfl⟩

theorem map_merge_opening (hnames : v.NamesDiffer) (stored : List Symbol) :
    ((o.opening d).merge stored ((o.opening d).symbols kind keep)).map (Symbol.asStored d.uri) =
      Symbol.candidates (((o.opening d).layers stored ((o.opening d).symbols kind keep)).map
        (Symbol.asStored d.uri)) := by
  rw [merge_eq, Symbol.candidates_map]
  case hlisted =>
    intro s hs s' hs'
    obtain ⟨hlocation, hname⟩ := listed_asStored hv ho huri hd hs
    obtain ⟨hlocation', hname'⟩ := listed_asStored hv ho huri hd hs'
    exact (Symbol.listedBefore_congr hlocation hname hlocation' hname').symm
  case hinj =>
    intro s hs s' hs' heq
    have hsuris : s.location.uri = s'.location.uri := by
      rw [← (listed_asStored hv ho huri hd hs).1, ← (listed_asStored hv ho huri hd hs').1, heq]
    by_cases hsuri : s.location.uri = d.uri
    · -- Both are symbols of the document, where no two are stored under one name.
      have hsuri' := hsuris ▸ hsuri
      rw [Symbol.asStored, Symbol.asStored, if_pos hsuri, if_pos hsuri'] at heq
      obtain ⟨hmem, hkind⟩ := mem_of_mem_opening hv ho huri hd hs hsuri
      obtain ⟨hmem', hkind'⟩ := mem_of_mem_opening hv ho huri hd hs' hsuri'
      refine hnames.eq (hv.symbols ▸ hmem) (hv.symbols ▸ hmem') hkind hkind' ?_
      rw [← Symbol.indexName_normal s, heq, Symbol.indexName_normal]
    · rwa [Symbol.asStored_of_ne hsuri, Symbol.asStored_of_ne (hsuris ▸ hsuri)] at heq

end Opening

section Storing
variable {before after : Rows} {last : String → Option Version} {v : Version} {d : Document}
  (hv : v.IsOf d) (h' : Holds after ((Operation.replace v).lastAfter last))
  (hlocated : ∀ uri w, last uri = some w → w.Located) (hd : v.Located)
  {wanted : Symbol → Prop} (hsame : ApartByName kind wanted) {a b : List Symbol}
  (hb : Lists b fun s => Live ((Operation.replace v).lastAfter last) kind s ∧ wanted s)
include hv h' hlocated hd hsame hb

/-- What is found of the document where it is stored are the wanted of its symbols. -/
theorem sorted_stored_self (hnames : v.NamesDiffer)
    (hkeep : ∀ s, keep s = true ↔ wanted s) :
    (Symbol.ofUri d.uri b).mergeSort Symbol.listedBefore =
      (((d.symbolsOfKind kind).filter keep).map Symbol.normal).mergeSort Symbol.listedBefore := by
  have hlocated' := forall_lastAfter hlocated hd
  have hdistinct := h'.distinct hlocated' hsame fun _ => h'.mem_lists hb
  refine Symbol.mergeSort_eq_of_mem_iff (fun s hs s' hs' => ?_) (hb.nodup.filter _) ?_ fun s => ?_
  · exact hdistinct s (Symbol.mem_ofUri.1 hs).1 s' (Symbol.mem_ofUri.1 hs').1
  · rw [Version.NamesDiffer, hv.symbols] at hnames
    have hpairs := (hnames.filter fun s => s.table? = some kind).filter keep
    refine List.pairwise_map.2 (hpairs.imp_of_mem fun hs hs' hdiffer heq => ?_)
    have hkind := (Document.mem_symbolsOfKind.1 (List.mem_filter.1 hs).1).2
    have hkind' := (Document.mem_symbolsOfKind.1 (List.mem_filter.1 hs').1).2
    refine hdiffer (by rw [hkind]; rfl) (hkind.trans hkind'.symm) ?_
    rw [← Symbol.indexName_normal, heq, Symbol.indexName_normal]
  · rw [Symbol.mem_ofUri, h'.mem_lists hb, List.mem_map]
    constructor
    · rintro ⟨⟨x, ⟨u, hx⟩, hxw, rfl⟩, hsuri⟩
      obtain ⟨hlocation, hu⟩ := hx.location_normal h' hlocated'
      rw [hlocation, hu] at hsuri
      rw [hsuri, ← hv.uri] at hx
      obtain ⟨hmem, hkind, -⟩ := Version.declared_eq_some (liveIn_lastAfter_self.1 hx)
      refine ⟨x, List.mem_filter.2 ⟨?_, (hkeep x).2 hxw⟩, rfl⟩
      exact Document.mem_symbolsOfKind.2 ⟨hv.symbols ▸ hmem, hkind⟩
    · rintro ⟨x, hx, rfl⟩
      obtain ⟨hx, hxkeep⟩ := List.mem_filter.1 hx
      obtain ⟨hmem, hkind⟩ := Document.mem_symbolsOfKind.1 hx
      obtain ⟨hlocation, hxuri⟩ := hv.location_normal hd hmem
      rw [← hv.symbols] at hmem
      refine ⟨⟨x, ⟨v.uri, liveIn_lastAfter_self.2 ?_⟩, (hkeep x).1 hxkeep, rfl⟩, ?_⟩
      · obtain ⟨y, hy⟩ := Version.exists_declared hmem hkind
        obtain ⟨hymem, hykind, hyname⟩ := Version.declared_eq_some hy
        rwa [hnames.eq hymem hmem hykind hkind hyname] at hy
      · rw [hlocation, hxuri]

/-- Other documents are found as they were. -/
theorem sorted_stored_of_ne (h : Holds before last)
    (ha : Lists a fun s => Live last kind s ∧ wanted s) {uri : String} (hne : uri ≠ d.uri) :
    (Symbol.ofUri uri b).mergeSort Symbol.listedBefore =
      (Symbol.ofUri uri a).mergeSort Symbol.listedBefore := by
  have hlocated' := forall_lastAfter hlocated hd
  have hdistinct := h'.distinct hlocated' hsame fun _ => h'.mem_lists hb
  refine Symbol.mergeSort_eq_of_mem_iff (fun s hs s' hs' => ?_) (hb.nodup.filter _)
    (ha.nodup.filter _) fun s => ?_
  · exact hdistinct s (Symbol.mem_ofUri.1 hs).1 s' (Symbol.mem_ofUri.1 hs').1
  · rw [Symbol.mem_ofUri, Symbol.mem_ofUri]
    refine and_congr_left fun hsuri => (h.mem_iff_of_uri_ne h' hlocated hd ha hb ?_).symm
    rw [hsuri, hv.uri]
    exact hne

/-- With the document open a lookup merges its symbols as they are, and with the document stored
as they are read back, at the same places. -/
theorem merge_asStored (h : Holds before last)
    (ha : Lists a fun s => Live last kind s ∧ wanted s) (huri : NulFree d.uri)
    (hnames : v.NamesDiffer) (ho : o.Valid) (hclosed : o.get? d.uri = none)
    (hkeep : ∀ s, keep s = true ↔ wanted s) :
    o.merge b (o.symbols kind keep) =
      ((o.opening d).merge a ((o.opening d).symbols kind keep)).map (Symbol.asStored d.uri) := by
  rw [map_merge_opening hv ho huri hd hnames, merge_eq]
  refine Symbol.candidates_eq_of_documents fun uri => ?_
  rw [Symbol.ofUri_map uri fun s hs => (listed_asStored hv ho huri hd hs).1, ofUri_layers ho]
  by_cases hself : uri = d.uri
  · subst hself
    have hmap := List.map_congr_left (f := Symbol.asStored d.uri) (g := Symbol.normal)
      (l := (d.symbolsOfKind kind).filter keep) fun s hs => by
        have hmem := (Document.mem_symbolsOfKind.1 (List.mem_filter.1 hs).1).1
        exact if_pos (hv.location_normal hd hmem).2
    rw [ofUri_opening_self hv ho huri hd, hmap, hclosed]
    exact sorted_stored_self hv h' hlocated hd hsame hb hnames hkeep
  · have hothers : ∀ s ∈ Symbol.ofUri uri
        ((o.opening d).layers a ((o.opening d).symbols kind keep)), s.location.uri ≠ d.uri := by
      intro s hs hsuri
      exact hself ((Symbol.mem_ofUri.1 hs).2.symm.trans hsuri)
    rw [Symbol.map_asStored_of_ne hothers, ofUri_opening_of_ne hv ho huri hd hself]
    cases o.get? uri with
    | none => exact sorted_stored_of_ne hv h' hlocated hd hsame hb h ha hself
    | some d' => rfl

end Storing

/-! ## Lookups -/

section Lookups
variable {rows : Rows} {last : String → Option Version} (h : Holds rows last)
  (hlocated : ∀ uri w, last uri = some w → w.Located)
include h hlocated

theorem find_source (o : OpenDocuments) (kind : TableKind) (name : String) :
    ∃ found, (Index.source rows).find kind name = .ok found ∧
      (Lists found fun s => Live last kind s ∧ s.indexName = name) ∧
      (o.source rows).find kind name =
        .ok (o.merge found (o.symbols kind fun s => s.indexName == name)) := by
  obtain ⟨found, hfound, hlists⟩ := h.find_exact hlocated kind name
  refine ⟨found, hfound, hlists, ?_⟩
  unfold source
  split
  next hempty =>
    rw [merge_of_isEmpty hempty hlists]
    exact hfound
  next => simp only [show (Index.source rows).find kind name = .ok found from hfound]; rfl

theorem membersOf_source (o : OpenDocuments) (hkind : kind.isMember) {owner : String}
    (hnul : NulFree owner) (hat : AtFree owner) :
    ∃ found, (Index.source rows).membersOf kind owner = .ok found ∧
      (Lists found fun s => Live last kind s ∧ s.scope? = some owner) ∧
      (o.source rows).membersOf kind owner =
        .ok (o.merge found (o.symbols kind fun s => s.scope? == some owner)) := by
  obtain ⟨found, hfound, hlists⟩ := h.membersOf_exact hlocated hkind hnul hat
  refine ⟨found, hfound, hlists, ?_⟩
  unfold source
  split
  next hempty =>
    rw [merge_of_isEmpty hempty hlists]
    exact hfound
  next => simp only [show (Index.source rows).membersOf kind owner = .ok found from hfound]; rfl

omit hlocated in
theorem run_shadowed (ho : o.Valid) (kind : TableKind) : ∃ n, o.shadowed rows kind = .ok n := by
  choose! old hold using fun uri (huri : NulFree uri) => h.run_symbolsOfKind huri kind
  have hrun := Query.run_forEach_eq_map rows (l := o.keys)
    (f := fun uri => Index.symbolsOfKind uri kind) (g := old) fun uri huri => by
      obtain ⟨d, hd⟩ := OrderedMap.mem_keys.1 huri
      exact (hold uri (ho.nulFree _ hd)).1
  exact ⟨_, by rw [shadowed, hrun]; rfl⟩

/-- Where the limit has room for all rows and all symbols of open documents, it cuts off
nothing. -/
theorem search_source (ho : o.Valid)
    (hnames : ∀ uri w, last uri = some w → ∀ s ∈ w.symbols, FitsText s.indexName)
    (kind : TableKind) {scope keyword : String} (hscope : AtFree scope)
    (hkeyword : NulFree keyword) {limit : Nat} (hlimit : rows.size + o.declared ≤ limit) :
    ∃ found, (Index.source rows).search kind scope keyword limit = .ok found ∧
      (Lists found fun s => Live last kind s ∧ s.Matches scope keyword) ∧
      (o.source rows).search kind scope keyword limit =
        .ok (o.merge found (o.symbols kind fun s =>
          s.scope?.getD "" == scope && hasWord (Text.lower keyword) s)) := by
  have hroom : rows.size ≤ limit := by omega
  obtain ⟨found, hfound, hlists, -⟩ :=
    h.search_exact hlocated hnames kind hscope hkeyword hroom
  refine ⟨found, hfound, hlists, ?_⟩
  unfold source
  split
  next hempty =>
    rw [merge_of_isEmpty hempty hlists]
    exact hfound
  next =>
    obtain ⟨hidden, hhidden⟩ := run_shadowed h ho kind
    obtain ⟨found', hfound', hlists', -⟩ := h.search_exact hlocated hnames kind hscope
      (Text.nulFree_lower hkeyword) (Nat.le_trans hroom (Nat.le_add_right limit hidden))
    -- The keyword is put in lower case twice.
    simp only [Symbol.Matches, Text.lower_lower] at hlists'
    obtain rfl := h.lists_unique hlocated (Symbol.apartByName_matches kind scope keyword) hlists
      hlists'
    have hlength : (o.merge found (o.symbols kind fun s =>
        s.scope?.getD "" == scope && hasWord (Text.lower keyword) s)).length ≤ limit :=
      Nat.le_trans (o.length_merge_le found kind _)
        (Nat.le_trans (Nat.add_le_add_right (h.length_lists_le hlocated hlists) _) hlimit)
    simp only [search, hhidden, hfound', bind, Except.bind, pure, Except.pure,
      List.take_of_length_le hlength]

end Lookups

/-- Whether a lookup finds with the document open what it finds with it stored, up to what is read
back of its symbols, and hides of what the index holds the old symbols of the document and those
of the other open documents. -/
structure OpensAsStored (lookup : SymbolSource → Except StoreError (List Symbol))
    (o : OpenDocuments) (d : Document) (before after : Rows) (found indexed : List Symbol) :
    Prop where
  opened : lookup ((o.opening d).source before) = .ok found
  stored : lookup (o.source after) = .ok (found.map (Symbol.asStored d.uri))
  index : lookup (Index.source before) = .ok indexed
  hides : ∀ s ∈ found, s.location.uri = d.uri → s ∈ d.symbols
  shows : ∀ s ∈ indexed, s.location.uri ≠ d.uri → o.get? s.location.uri = none → s ∈ found

section Agreement
variable {before after : Rows} {last : String → Option Version} {v : Version} {d : Document}
  (hv : v.IsOf d) (h : Holds before last)
  (h' : Holds after ((Operation.replace v).lastAfter last))
  (hlocated : ∀ uri w, last uri = some w → w.Located) (hd : v.Located)
  (huri : NulFree d.uri) (hnames : v.NamesDiffer) (ho : o.Valid) (hclosed : o.get? d.uri = none)
include hv h h' hlocated hd huri hnames ho hclosed

theorem opensAsStored_of_lists {wanted : Symbol → Prop} (hsame : ApartByName kind wanted)
    (hkeep : ∀ s, keep s = true ↔ wanted s)
    {lookup : SymbolSource → Except StoreError (List Symbol)} {a b : List Symbol}
    (hindex : lookup (Index.source before) = .ok a)
    (ha : Lists a fun s => Live last kind s ∧ wanted s)
    (hopened : lookup ((o.opening d).source before) =
      .ok ((o.opening d).merge a ((o.opening d).symbols kind keep)))
    (hb : Lists b fun s => Live ((Operation.replace v).lastAfter last) kind s ∧ wanted s)
    (hstored : lookup (o.source after) = .ok (o.merge b (o.symbols kind keep))) :
    ∃ found indexed, OpensAsStored lookup o d before after found indexed := by
  refine ⟨_, a, hopened, hstored.trans (congrArg Except.ok ?stored), hindex,
    fun s hs hsuri => ?hides, fun s hs hne hopen => ?shows⟩
  case stored =>
    exact merge_asStored hv h' hlocated hd hsame hb h ha huri hnames ho hclosed hkeep
  case hides =>
    rw [merge_eq, Symbol.mem_candidates] at hs
    exact (mem_of_mem_opening hv ho huri hd hs hsuri).1
  case shows =>
    have hopening : (o.opening d).contains s.location.uri = false := by
      rw [OrderedMap.contains, opening, OrderedMap.get?_insert, if_neg hne, hopen]
      rfl
    rw [merge_eq, Symbol.mem_candidates, layers, List.mem_append, List.mem_filter, hopening]
    exact .inl ⟨hs, rfl⟩

theorem find_opensAsStored (kind : TableKind) (name : String) : ∃ found indexed,
    OpensAsStored (·.find kind name) o d before after found indexed := by
  obtain ⟨a, hindex, ha, hopened⟩ := find_source h hlocated (o.opening d) kind name
  obtain ⟨b, -, hb, hstored⟩ := find_source h' (forall_lastAfter hlocated hd) o kind name
  exact opensAsStored_of_lists hv h h' hlocated hd huri hnames ho hclosed
    (apartByName_indexName kind name) (fun s => beq_iff_eq) hindex ha hopened hb hstored

theorem membersOf_opensAsStored (hkind : kind.isMember) {owner : String} (hnul : NulFree owner)
    (hat : AtFree owner) : ∃ found indexed,
      OpensAsStored (·.membersOf kind owner) o d before after found indexed := by
  obtain ⟨a, hindex, ha, hopened⟩ := membersOf_source h hlocated (o.opening d) hkind hnul hat
  obtain ⟨b, -, hb, hstored⟩ :=
    membersOf_source h' (forall_lastAfter hlocated hd) o hkind hnul hat
  exact opensAsStored_of_lists hv h h' hlocated hd huri hnames ho hclosed
    (apartByName_scope kind owner) (fun s => beq_iff_eq) hindex ha hopened hb hstored

theorem search_opensAsStored
    (hfit : ∀ uri w, last uri = some w → ∀ s ∈ w.symbols, FitsText s.indexName)
    (hdfit : ∀ s ∈ d.symbols, FitsText s.indexName) (kind : TableKind) {scope keyword : String}
    (hscope : AtFree scope) (hkeyword : NulFree keyword) {limit : Nat}
    (hlimit : before.size + (o.opening d).declared ≤ limit)
    (hlimit' : after.size + o.declared ≤ limit) : ∃ found indexed,
      OpensAsStored (·.search kind scope keyword limit) o d before after found indexed := by
  have hopening := ho.opening huri fun s hs => (hv.location_normal hd hs).2
  obtain ⟨a, hindex, ha, hopened⟩ :=
    search_source h hlocated hopening hfit kind hscope hkeyword hlimit
  obtain ⟨b, -, hb, hstored⟩ := search_source h' (forall_lastAfter hlocated hd) ho
    (forall_lastAfter hfit (hv.symbols ▸ hdfit)) kind hscope hkeyword hlimit'
  exact opensAsStored_of_lists hv h h' hlocated hd huri hnames ho hclosed
    (Symbol.apartByName_matches kind scope keyword)
    (fun s => Symbol.matches_iff_hasWord.symm) hindex ha hopened hb hstored

end Agreement
end OpenDocuments

/-- After any run and whatever else is open, a document that is opened answers lookups as if it
were stored. The limit of a search is one that the rows and the open symbols do not reach. -/
theorem opens_as_stored {ops : List Operation} (hops : ∀ op ∈ ops, op.Valid)
    (hlocated : ∀ op ∈ ops, op.Located) (hfit : ∀ op ∈ ops, op.NamesFit) {o : OpenDocuments}
    (ho : o.Valid) {d : Document} (hclosed : o.get? d.uri = none) {t : Int64}
    (hd : (d.version t).Valid) (hdlocated : (d.version t).Located)
    (hdfit : ∀ s ∈ d.symbols, FitsText s.indexName) (hdiffer : (d.version t).NamesDiffer) :
    ∃ s s', Store.volatile.runAll ops = .ok s ∧
      s.replaceDocument (d.record t) d.symbols d.references d.scopes = .ok s' ∧
      (∀ kind name, ∃ found indexed,
        OpenDocuments.OpensAsStored (·.find kind name) o d s.rows s'.rows found indexed) ∧
      (∀ kind owner, kind.isMember → NulFree owner → AtFree owner → ∃ found indexed,
        OpenDocuments.OpensAsStored (·.membersOf kind owner) o d s.rows s'.rows found indexed) ∧
      ∀ kind scope keyword limit, AtFree scope → NulFree keyword →
        s.rows.size + (o.opening d).declared ≤ limit → s'.rows.size + o.declared ≤ limit →
          ∃ found indexed, OpenDocuments.OpensAsStored (·.search kind scope keyword limit) o d
            s.rows s'.rows found indexed := by
  obtain ⟨s, hrun, h⟩ := Holds.runAll (s := .volatile) Holds.empty hops
  obtain ⟨s', hreplace, h'⟩ := h.run (show (Operation.replace (d.version t)).Valid from hd)
  have hlast : ∀ uri w, lastVersion ops uri = some w → w.Located := fun _ _ hw =>
    located_of_lastVersion hlocated hw
  have hlastFit : ∀ uri w, lastVersion ops uri = some w → ∀ x ∈ w.symbols, FitsText x.indexName :=
    fun _ _ hw => hfit _ (replace_mem_of_lastVersion hw)
  refine ⟨s, s', hrun, hreplace, fun kind name => ?_, fun kind owner hkind hnul hat => ?_,
    fun kind scope keyword limit hscope hkeyword hlimit hlimit' => ?_⟩
  · exact OpenDocuments.find_opensAsStored (d.isOf_version t) h h' hlast hdlocated hd.uri hdiffer
      ho hclosed kind name
  · exact OpenDocuments.membersOf_opensAsStored (d.isOf_version t) h h' hlast hdlocated hd.uri
      hdiffer ho hclosed hkind hnul hat
  · exact OpenDocuments.search_opensAsStored (d.isOf_version t) h h' hlast hdlocated hd.uri
      hdiffer ho hclosed hlastFit hdfit kind hscope hkeyword hlimit hlimit'

theorem opens_as_stored_box :
    let get : Symbol := .method ⟨"get", "Box", .of "a.php" ⟨4, 9⟩, {}, {}, .empty, none⟩
    let put : Symbol := .method ⟨"put", "Box", .of "b.php" ⟨4, 9⟩, {}, {}, .empty, none⟩
    let clear : Symbol := .method ⟨"clear", "Box", .of "a.php" ⟨2, 7⟩, {}, {}, .empty, none⟩
    let ops := [.replace (.ofSymbols "a.php" [get, get]), .remove "b.php"]
    let o := OpenDocuments.opening .empty (.ofSymbols "b.php" [put])
    let d := Document.ofSymbols "a.php" [clear, get]
    ((∀ op ∈ ops, op.Valid ∧ op.Located ∧ op.NamesFit) ∧ o.Valid ∧ o.get? d.uri = none ∧
      (d.version 0).Valid ∧ (d.version 0).Located ∧ (∀ s ∈ d.symbols, FitsText s.indexName) ∧
      (d.version 0).NamesDiffer) ∧
    ∃ s s', Store.volatile.runAll ops = .ok s ∧
      s.replaceDocument (d.record 0) d.symbols d.references d.scopes = .ok s' ∧
      ∃ found indexed,
        OpenDocuments.OpensAsStored (·.membersOf .methods "Box") o d s.rows s'.rows found
          indexed := by
  intro get put clear ops o d
  have hops : ∀ op ∈ ops, op.Valid ∧ op.Located ∧ op.NamesFit := by decide
  have ho : o.Valid := ⟨by decide, by decide⟩
  have hd : o.get? d.uri = none ∧ (d.version 0).Valid ∧ (d.version 0).Located ∧
      (∀ s ∈ d.symbols, FitsText s.indexName) ∧ (d.version 0).NamesDiffer := by
    decide +kernel
  obtain ⟨hclosed, hvalid, hlocated, hfit, hdiffer⟩ := id hd
  obtain ⟨s, s', hrun, hreplace, -, hmembers, -⟩ := opens_as_stored
    (fun op hop => (hops op hop).1) (fun op hop => (hops op hop).2.1)
    (fun op hop => (hops op hop).2.2) ho hclosed hvalid hlocated hfit hdiffer
  exact ⟨⟨hops, ho, hd⟩, s, s', hrun, hreplace,
    hmembers .methods "Box" (by decide) (by decide) (by decide)⟩

/-- What is read of a function, before it is sorted. -/
def readsOf (name : String) : Query (List (Option Symbol)) :=
  (KindTables.of .functions).names.find name >>= Query.forEach fun uri =>
    (KindTables.of .functions).declarations.get uri name

theorem run_find_readsOf (rows : Rows) (name : String) :
    (Index.source rows).find .functions name =
      ((readsOf name).run rows).map fun found => Symbol.candidates (found.filterMap id) :=
  run_candidates rows _ _

/-- What is read before and after a document is stored without its rangeless function. -/
def staleReads : Except StoreError (List (Option Symbol) × List (Option Symbol)) := do
  let s ← Store.volatile.runAll [.replace (.ofSymbols "a" [rangeless "a" "int"])]
  let s' ← (Operation.replace ((Document.ofSymbols "a" []).version 0)).run s
  let old ← (readsOf "f").run s.rows
  let new ← (readsOf "f").run s'.rows
  pure (old, new)

theorem staleReads_eq : staleReads = .ok ([some (rangeless "a" "int").normal], []) := by
  decide +kernel

/-- A stored symbol without a range is not hidden by its open document, and an overlong text is
found in an open document but not in the index. -/
theorem opens_unlike_stored :
    (let v := Version.ofSymbols "a" [rangeless "a" "int"]
     let d := Document.ofSymbols "a" []
     (v.Valid ∧ ∀ s ∈ v.symbols, s.location.uri? = some v.uri) ∧
      ((d.version 0).Valid ∧ (d.version 0).Located ∧ (d.version 0).NamesDiffer) ∧
      ∃ s s', Store.volatile.runAll [.replace v] = .ok s ∧
        s.replaceDocument (d.record 0) d.symbols d.references d.scopes = .ok s' ∧
        ((OpenDocuments.opening .empty d).source s.rows).find .functions "f" =
          .ok [(rangeless "a" "int").normal] ∧
        (OpenDocuments.source .empty s'.rows).find .functions "f" = .ok []) ∧
    let d := Document.ofSymbols "a" [described oversized]
    (NulFree d.uri ∧ (described oversized).Separable ∧ (d.version 0).Located ∧
      (d.version 0).NamesDiffer) ∧
      ∃ s', Store.volatile.replaceDocument (d.record 0) d.symbols d.references d.scopes = .ok s' ∧
        (∃ found, ((OpenDocuments.opening .empty d).source Store.volatile.rows).find .functions
          "f" = .ok found) ∧
        ∀ found, (OpenDocuments.source .empty s'.rows).find .functions "f" ≠ .ok found := by
  constructor
  · intro v d
    refine ⟨⟨by decide, by decide⟩, by decide +kernel, ?_⟩
    obtain ⟨s, hs, hreads⟩ := bind_eq_ok staleReads_eq
    obtain ⟨s', hs', hreads⟩ := bind_eq_ok hreads
    obtain ⟨old, hold, hreads⟩ := bind_eq_ok hreads
    obtain ⟨new, hnew, hreads⟩ := bind_eq_ok hreads
    cases hreads
    have hone : Symbol.candidates [(rangeless "a" "int").normal] =
        [(rangeless "a" "int").normal] :=
      Symbol.candidates_eq_self (List.pairwise_singleton _ _) (List.nodup_singleton _)
    have hlayers : (OpenDocuments.opening .empty d).layers [(rangeless "a" "int").normal] [] =
        [(rangeless "a" "int").normal] := by
      decide
    refine ⟨s, s', hs, hs', ?_, ?_⟩
    · have hfind : (Index.source s.rows).find .functions "f" =
          .ok [(rangeless "a" "int").normal] := by
        rw [run_find_readsOf, hold]
        exact congrArg Except.ok hone
      show (do
        let found ← (Index.source s.rows).find .functions "f"
        pure ((OpenDocuments.opening .empty d).merge found [])) = _
      rw [hfind]
      refine congrArg Except.ok ?_
      rw [OpenDocuments.merge_eq, hlayers, hone]
    · show (Index.source s'.rows).find .functions "f" = _
      rw [run_find_readsOf, hnew]
      exact congrArg Except.ok (Symbol.candidates_eq_self .nil .nil)
  · intro d
    refine ⟨⟨by decide, ⟨by decide, nofun⟩, by decide, by decide⟩, ?_⟩
    obtain ⟨s', hrun, hfind⟩ := run_find_oversized (v := d.version 0) rfl rfl
    obtain ⟨found, -, -, hopened⟩ := OpenDocuments.find_source Holds.empty nofun
      (OpenDocuments.opening .empty d) .functions "f"
    exact ⟨s', hrun, ⟨_, hopened⟩, hfind⟩

end PhpIndex
