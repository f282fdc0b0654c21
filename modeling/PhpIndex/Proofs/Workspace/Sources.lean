import PhpIndex.Proofs.Extract.Walk
import PhpIndex.Proofs.Lookup.Alike
import PhpIndex.Proofs.Lookup.Listing
import PhpIndex.Proofs.Workspace.Overlay
import Mathlib.Algebra.Order.BigOperators.Group.List
import Mathlib.Algebra.Order.Group.Nat

/-!
# A document open and the document stored

Symbols are looked up in the store behind the open documents. A document that is opened and the
same document stored make sources that answer alike: symbols of the document come as they are from
the one and as they are read back from the other. Ancestors are bounded by the bytes of the keys
and the open symbols, of which every class that is found has one.
Main statements: `OpenDocuments.bounded_source`, `OpenDocuments.answersFor_source`,
`OpenDocuments.alike_opening`, `OpenDocuments.listsAlike_opening`.
-/
namespace PhpIndex

/-! ## Symbols of the document in their stored form -/

namespace Document

/-- Whether the symbol is one of the document if it names its uri. -/
def Knows (d : Document) (s : Symbol) : Prop := s.location.uri = d.uri → s ∈ d.symbols

theorem Knows.asStored_cases {d : Document} {s : Symbol} (hs : d.Knows s) :
    s.asStored d.uri = s ∨ (s ∈ d.symbols ∧ s.asStored d.uri = s.normal) := by
  by_cases hsuri : s.location.uri = d.uri
  · exact .inr ⟨hs hsuri, if_pos hsuri⟩
  · exact .inl (Symbol.asStored_of_ne hsuri)

namespace Sound
variable {v : Version} {d : Document} (hd : d.Sound) (hv : v.IsOf d)
include hd hv

theorem located : v.Located := by
  intro s hs
  obtain ⟨range, hlocation⟩ := (hd.symbols s (hv.symbols ▸ hs)).located
  rw [hlocation, hv.uri]
  exact ⟨rfl, rfl⟩

/-- What is stored of a document that declares nothing twice keeps what its symbols show. -/
theorem keptBy (hnames : v.NamesDiffer) :
    Symbol.KeptBy (Symbol.asStored d.uri) d.Knows := by
  have hlocation (s : Symbol) (hs : d.Knows s) : (s.asStored d.uri).location = s.location := by
    rcases hs.asStored_cases with h | ⟨hmem, h⟩
    · rw [h]
    · rw [h, (hv.location_normal (hd.located hv) hmem).1]
  have hfield {β : Type} (g : Symbol → β) (hg : ∀ s ∈ d.symbols, g s.normal = g s) (s : Symbol)
      (hs : d.Knows s) : g (s.asStored d.uri) = g s := by
    rcases hs.asStored_cases with h | ⟨hmem, h⟩
    · rw [h]
    · rw [h, hg s hmem]
  constructor
  case inj =>
    intro s t hs ht heq
    have huris : s.location.uri = t.location.uri := by
      rw [← hlocation s hs, ← hlocation t ht, heq]
    by_cases hsuri : s.location.uri = d.uri
    · have hsmem := hs hsuri
      have htmem := ht (huris ▸ hsuri)
      rw [Symbol.asStored, Symbol.asStored, if_pos hsuri, if_pos (huris ▸ hsuri)] at heq
      obtain ⟨kind, hkind⟩ := Option.isSome_iff_exists.1 (hd.symbols s hsmem).table
      have htkind : t.table? = some kind := by
        rw [← Symbol.table?_normal, ← heq, Symbol.table?_normal, hkind]
      refine hnames.eq (hv.symbols ▸ hsmem) (hv.symbols ▸ htmem) hkind htkind ?_
      rw [← Symbol.indexName_normal s, heq, Symbol.indexName_normal]
    · rwa [Symbol.asStored_of_ne hsuri, Symbol.asStored_of_ne (huris ▸ hsuri)] at heq
  case location => exact hlocation
  case name => exact hfield _ fun s _ => Symbol.name_normal s
  case isStatic => exact hfield _ fun s _ => Symbol.isStatic_normal s
  case label => exact hfield _ fun s hs => (hd.symbols s hs).tidy.label_normal
  case description => exact hfield _ fun s _ => Symbol.description?_normal s
  case info => exact hfield _ fun s hs => (hd.symbols s hs).tidy.info_normal
  case supertypes =>
    refine hfield (fun s => s.classDecl?.map ClassDecl.supertypes) fun s _ => ?_
    rw [Symbol.classDecl?_normal, Option.map_map]
    rfl

end Sound
end Document

/-! ## Classes that are found -/

namespace Rows

/-- The texts that stand in keys behind as many bytes as `lead` has, each up to some byte. -/
def texts (rows : Rows) (lead : Bytes) : List String :=
  rows.keys.flatMap fun key =>
    (List.range key.length).filterMap fun i => Bytes.toText? ((key.take i).drop lead.length)

/-- There is one such text at most for each byte of a key. -/
theorem length_texts_le (rows : Rows) (lead : Bytes) :
    (rows.texts lead).length ≤ rows.keys.flatten.length := by
  rw [texts, List.length_flatMap, List.length_flatten]
  refine List.sum_le_sum fun key _ => ?_
  exact (List.length_filterMap_le _ _).trans_eq List.length_range

/-- A name that stands in a key up to a zero byte is one of the texts. -/
theorem mem_texts {rows : Rows} {table : Table} {name : String} {row : Row}
    (hrow : row ∈ rows.scan (table.key (joinKey [name, ""]))) : name ∈ rows.texts table.lead := by
  obtain ⟨key, value⟩ := row
  obtain ⟨hget, rest, rfl⟩ := Rows.mem_scan.1 hrow
  have hkey := OrderedMap.mem_keys.2 ⟨value, (OrderedMap.get?_eq_some_iff _ _ _).1 hget⟩
  rw [Table.key, joinKey_pair] at hkey
  refine List.mem_flatMap.2 ⟨_, hkey, List.mem_filterMap.2
    ⟨table.lead.length + (Bytes.ofText name).length, ?_, ?_⟩⟩
  · simp only [List.mem_range, List.length_append, List.length_cons]
    omega
  · simp only [List.append_assoc, List.take_length_add_append, List.take_left, List.drop_left,
      Bytes.toText?_ofText]

end Rows

/-- Where no key begins with a name, nothing is found under it. -/
theorem Index.run_find_of_not_mem {rows : Rows} {kind : TableKind} {name : String}
    (h : name ∉ rows.texts (KindTables.of kind).names.table.lead) :
    (Index.find kind name).run rows = .ok [] := by
  have hscan : rows.scan ((KindTables.of kind).names.table.key (joinKey [name, ""])) = [] :=
    List.eq_nil_iff_forall_not_mem.2 fun row hrow => h (Rows.mem_texts hrow)
  have hnames : ((KindTables.of kind).names.find name).run rows = .ok [] := by
    refine (Query.run_bind_eq_ok rows (Query.run_scan rows _ _)).trans ?_
    rw [hscan]
    rfl
  exact (Query.run_bind_eq_ok rows hnames).trans
    (congrArg Except.ok (Symbol.candidates_eq_self .nil .nil))

namespace OpenDocuments
variable {rows : Rows} {last : String → Option Version}

/-- What is found was stored or is in an open document. -/
theorem mem_find_source (h : Holds rows last)
    (hlocated : ∀ uri w, last uri = some w → w.Located) (o : OpenDocuments) {kind : TableKind}
    {name : String} {found : List Symbol} (hfound : (o.source rows).find kind name = .ok found)
    {s : Symbol} (hs : s ∈ found) : s.indexName = name ∧
      ((∃ t, Live last kind t ∧ s = t.normal) ∨ ∃ e ∈ o.entries, s ∈ e.2.symbols) := by
  obtain ⟨stored, -, hlists, hmerge⟩ := find_source h hlocated o kind name
  obtain rfl := Except.ok.inj (hfound.symm.trans hmerge)
  rw [merge_eq, Symbol.mem_candidates, layers, List.mem_append] at hs
  rcases hs with hs | hs
  · obtain ⟨t, ht, hname, rfl⟩ := (h.mem_lists hlists).1 (List.mem_filter.1 hs).1
    exact ⟨(Symbol.indexName_normal t).trans hname, .inl ⟨t, ht, rfl⟩⟩
  · obtain ⟨e, he, hs⟩ := List.mem_flatMap.1 hs
    obtain ⟨hs, hname⟩ := List.mem_filter.1 hs
    exact ⟨beq_iff_eq.1 hname, .inr ⟨e, he, (Document.mem_symbolsOfKind.1 hs).1⟩⟩

theorem classBound_source (o : OpenDocuments) (rows : Rows) :
    (o.source rows).classBound = rows.keys.flatten.length + o.declared := by
  unfold source
  split
  next hempty =>
    have hentries : o.entries = [] := List.isEmpty_iff.1 hempty
    rw [declared, hentries]
    rfl
  next => rfl

/-- Whatever the rows, every class that is found has a key or is in an open document. -/
theorem bounded_source (o : OpenDocuments) (rows : Rows) : (o.source rows).Bounded := by
  let stored := rows.texts (KindTables.of .classes).names.table.lead
  let opened := (o.entries.flatMap fun e => e.2.symbols).map Symbol.indexName
  refine ⟨stored ++ opened, fun name hname => ?_, ?_⟩
  · by_contra hmem
    obtain ⟨hstored, hopened⟩ := not_or.1 fun h => hmem (List.mem_append.2 h)
    have hfind : (Index.source rows).find .classes name = .ok [] :=
      Index.run_find_of_not_mem hstored
    have hsymbols : o.symbols .classes (fun s => s.indexName == name) = [] := by
      refine List.eq_nil_iff_forall_not_mem.2 fun s hs => hopened ?_
      obtain ⟨e, he, hs⟩ := List.mem_flatMap.1 hs
      obtain ⟨hs, hindex⟩ := List.mem_filter.1 hs
      exact List.mem_map.2 ⟨s, List.mem_flatMap.2 ⟨e, he, (Document.mem_symbolsOfKind.1 hs).1⟩,
        beq_iff_eq.1 hindex⟩
    refine hname ?_
    unfold source
    split
    next => exact hfind
    next =>
      simp only [hfind, hsymbols]
      exact congrArg Except.ok (Symbol.candidates_eq_self .nil .nil)
  · rw [List.length_append, List.length_map, classBound_source, declared]
    exact Nat.add_le_add_right (rows.length_texts_le _) _

/-- Every symbol of a merged answer is stored, of the kind and wanted, or open. -/
theorem mem_merge (h : Holds rows last) (o : OpenDocuments) {kind : TableKind}
    {wanted : Symbol → Prop} {stored : List Symbol} {keep : Symbol → Bool}
    (hstored : Lists stored fun s => Live last kind s ∧ wanted s) {s : Symbol}
    (hs : s ∈ o.merge stored (o.symbols kind keep)) :
    s.table? = some kind ∧ ((∃ t, wanted t ∧ s = t.normal) ∨ keep s = true) := by
  rw [merge_eq, Symbol.mem_candidates, layers, List.mem_append] at hs
  rcases hs with hs | hs
  · obtain ⟨t, ⟨uri, v, -, hdeclared⟩, hwanted, rfl⟩ :=
      (h.mem_lists hstored).1 (List.mem_filter.1 hs).1
    exact ⟨(Symbol.table?_normal t).trans (Version.declared_eq_some hdeclared).2.1,
      .inl ⟨t, hwanted, rfl⟩⟩
  · obtain ⟨e, -, hs⟩ := List.mem_flatMap.1 hs
    obtain ⟨hs, hkeep⟩ := List.mem_filter.1 hs
    exact ⟨(Document.mem_symbolsOfKind.1 hs).2, .inr hkeep⟩

/-- The index, with any documents open in front of it, is asked for members and answers with
nothing else. -/
theorem answersFor_source (h : Holds rows last)
    (hlocated : ∀ uri w, last uri = some w → w.Located)
    (hfit : ∀ uri w, last uri = some w → ∀ s ∈ w.symbols, FitsText s.indexName)
    {o : OpenDocuments} (ho : o.Valid) {owner keyword : String} (hnul : NulFree owner)
    (hat : AtFree owner) (hkeyword : NulFree keyword)
    (hlimit : rows.size + o.declared < UInt64.size) : (o.source rows).AnswersFor owner keyword where
  membersOf kind hkind found hfound s hs := by
    obtain ⟨stored, -, hstored, hmerge⟩ :=
      membersOf_source h hlocated o (decide_eq_true hkind) hnul hat
    obtain rfl := Except.ok.inj (hfound.symm.trans hmerge)
    obtain ⟨htable, ⟨t, hscope, rfl⟩ | hkeep⟩ := mem_merge h o hstored hs
    · exact ⟨htable, (Symbol.scope?_normal t).trans hscope⟩
    · exact ⟨htable, beq_iff_eq.1 hkeep⟩
  search kind hkind found hfound s hs := by
    obtain ⟨stored, -, hstored, hmerge⟩ := search_source h hlocated ho hfit kind hat hkeyword
      (Nat.le_sub_one_of_lt hlimit)
    obtain rfl := Except.ok.inj (hfound.symm.trans hmerge)
    obtain ⟨htable, hwanted⟩ := mem_merge h o hstored hs
    have hscope : s.scope?.getD "" = owner := by
      rcases hwanted with ⟨t, hmatches, rfl⟩ | hkeep
      · rw [Symbol.scope?_normal]
        exact hmatches.1
      · exact beq_iff_eq.1 (Bool.and_eq_true_iff.1 hkeep).1
    have hmember : s.scope?.isSome = true := by
      rw [Symbol.isSome_scope? htable]
      exact decide_eq_true hkind
    obtain ⟨scope, hsome⟩ := Option.isSome_iff_exists.1 hmember
    rw [hsome, Option.getD_some] at hscope
    exact ⟨htable, hsome.trans (congrArg some hscope)⟩

theorem OpensAsStored.asShown {before after : Rows} {d : Document} {o : OpenDocuments}
    {lookup : SymbolSource → Except StoreError (List Symbol)} {found indexed : List Symbol}
    (h : OpensAsStored lookup o d before after found indexed) :
    Shows (Symbol.asStored d.uri) d.Knows (lookup ((o.opening d).source before))
      (lookup (o.source after)) :=
  ⟨found, h.opened, h.stored, h.hides⟩

section Agreement
variable {before after : Rows} {v : Version} {d : Document} {o : OpenDocuments} (hd : d.Sound)
  (hv : v.IsOf d) (h : Holds before last) (h' : Holds after ((Operation.replace v).lastAfter last))
  (hlocated : ∀ uri w, last uri = some w → w.Located) (huri : NulFree d.uri)
  (hnames : v.NamesDiffer) (ho : o.Valid) (hclosed : o.get? d.uri = none)
include hd hv h h' hlocated huri hnames ho hclosed

theorem alike_opening : SymbolSource.Alike (Symbol.asStored d.uri) d.Knows
    ((o.opening d).source before) (o.source after) where
  kept := hd.keptBy hv hnames
  find kind name := by
    obtain ⟨found, indexed, hopens⟩ := find_opensAsStored hv h h' hlocated (hd.located hv) huri
      hnames ho hclosed kind name
    exact hopens.asShown
  bounded := bounded_source _ before
  bounded' := bounded_source _ after

/-- Members are listed alike on every class whose name is part of keys. -/
theorem listsAlike_opening
    (hfit : ∀ uri w, last uri = some w → ∀ s ∈ w.symbols, FitsText s.indexName)
    (hdfit : ∀ s ∈ d.symbols, FitsText s.indexName) {keyword : String} (hkeyword : NulFree keyword)
    (hlimit : before.size + (o.opening d).declared < UInt64.size)
    (hlimit' : after.size + o.declared < UInt64.size) {kinds : List TableKind}
    (hkinds : ∀ kind ∈ kinds, kind.isMember) :
    SymbolSource.ListsAlike (Symbol.asStored d.uri) d.Knows ((o.opening d).source before)
      (o.source after) kinds keyword fun owner => NulFree owner ∧ AtFree owner := by
  intro kind hkind owner ⟨hnul, hat⟩
  have hdlocated := hd.located hv
  unfold SymbolSource.membersFor
  split
  · obtain ⟨found, indexed, hopens⟩ := membersOf_opensAsStored hv h h' hlocated hdlocated huri
      hnames ho hclosed (hkinds kind hkind) hnul hat
    exact hopens.asShown
  · obtain ⟨found, indexed, hopens⟩ := search_opensAsStored hv h h' hlocated hdlocated huri hnames
      ho hclosed hfit hdfit kind hat hkeyword (Nat.le_sub_one_of_lt hlimit)
      (Nat.le_sub_one_of_lt hlimit')
    exact hopens.asShown

end Agreement
end OpenDocuments
end PhpIndex
