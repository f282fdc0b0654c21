import PhpIndex.Proofs.Index.Contents
import PhpIndex.Proofs.Lookup.Context
import PhpIndex.Proofs.Workspace.Sources
import PhpIndex.Workspace.Questions

/-!
# Answers from a buffer and from rows

An open document answers from its buffer and a closed one from its rows. If the rows are those of
the same text, both find the same references at every offset, the same scopes around them and the
same symbols behind them, up to what a record keeps of the names of types.
Main statements: `Workspace.SameButOpen.definition`, `Workspace.SameButOpen.hover`,
`Workspace.SameButOpen.completion`, `Workspace.SameButOpen.definition_eq`.
-/
namespace PhpIndex

/-- Whether keys can be made of the names of the supertypes that the symbol declares. -/
def Symbol.PlainSupertypes (s : Symbol) : Prop :=
  ∀ c ∈ s.classDecl?, ∀ n ∈ c.supertypes, NulFree n ∧ AtFree n

instance : DecidablePred Symbol.PlainSupertypes := fun s =>
  inferInstanceAs (Decidable (∀ c ∈ s.classDecl?, _))

theorem Symbol.plainSupertypes_normal {s : Symbol} :
    s.normal.PlainSupertypes ↔ s.PlainSupertypes := by
  unfold PlainSupertypes
  rw [classDecl?_normal]
  cases s.classDecl? with
  | none => simp
  | some c => simp [ClassDecl.normal, ClassDecl.supertypes]

/-- Whether the names of the reference are spelled the same after they were stored. -/
def Reference.Spelled (r : Reference) : Prop := ∀ t ∈ r.types.types, t.Steady

instance : DecidablePred Reference.Spelled := fun r =>
  inferInstanceAs (Decidable (∀ t ∈ r.types.types, _))

/-- Whether the version is one of the document, and its records keep the document whole. -/
structure Version.Records (v : Version) (d : Document) : Prop where
  isOf : v.IsOf d
  valid : v.Valid
  names : v.NamesDiffer
  ranges : d.symbols.Pairwise fun s t => s.location.range? ≠ t.location.range?
  short : d.text.utf8ByteSize < 0x80000000
  fewReferences : d.references.length < 0x80000000
  references : ∀ r ∈ d.references, r.Fits
  fewScopes : d.scopes.length < 0x80000000
  scopes : ∀ s ∈ d.scopes, s.Fits

instance (v : Version) (d : Document) : Decidable (v.IsOf d) :=
  decidable_of_iff (v.uri = d.uri ∧ v.record.imports = d.imports ∧
      v.record.globals = d.globals ∧ v.symbols = d.symbols ∧ v.references = d.references ∧
      v.scopes = d.scopes)
    ⟨fun ⟨a, b, c, d, e, f⟩ => ⟨a, b, c, d, e, f⟩, fun ⟨a, b, c, d, e, f⟩ => ⟨a, b, c, d, e, f⟩⟩

instance (v : Version) (d : Document) : Decidable (v.Records d) :=
  decidable_of_iff ((v.IsOf d ∧ v.Valid ∧ v.NamesDiffer ∧
      (d.symbols.Pairwise fun s t => s.location.range? ≠ t.location.range?) ∧
      d.text.utf8ByteSize < 0x80000000) ∧
      (d.references.length < 0x80000000 ∧ ∀ r ∈ d.references, r.Fits) ∧
      d.scopes.length < 0x80000000 ∧ ∀ s ∈ d.scopes, s.Fits)
    ⟨fun ⟨⟨a, b, c, d, e⟩, ⟨f, g⟩, i, j⟩ => ⟨a, b, c, d, e, f, g, i, j⟩,
     fun ⟨a, b, c, d, e, f, g, i, j⟩ => ⟨⟨a, b, c, d, e⟩, ⟨f, g⟩, i, j⟩⟩

namespace Document

/-- Whether keys can be made of the names of the classes that members are completed on, and of
what is typed of a member. -/
structure Completable (d : Document) : Prop where
  receivers : ∀ r ∈ d.references, ∀ n ∈ d.context.receivers r, NulFree n ∧ AtFree n
  names : ∀ r ∈ d.references, NulFree r.name
  supertypes : ∀ s ∈ d.symbols, s.PlainSupertypes
  indexNames : ∀ s ∈ d.symbols, FitsText s.indexName

instance : DecidablePred Completable := fun d =>
  decidable_of_iff ((∀ r ∈ d.references, ∀ n ∈ d.context.receivers r, NulFree n ∧ AtFree n) ∧
      (∀ r ∈ d.references, NulFree r.name) ∧ (∀ s ∈ d.symbols, s.PlainSupertypes) ∧
      ∀ s ∈ d.symbols, FitsText s.indexName)
    ⟨fun ⟨a, b, c, d⟩ => ⟨a, b, c, d⟩, fun ⟨a, b, c, d⟩ => ⟨a, b, c, d⟩⟩

/-- The scopes of functions with their ranges. -/
def ranged (d : Document) : List (Range × VariableScope) :=
  d.scopes.filterMap fun s => s.range?.map fun range => (range, s)

theorem mem_ranged {d : Document} {e : Range × VariableScope} (he : e ∈ d.ranged) :
    e.2 ∈ d.scopes ∧ e.2.range? = some e.1 := by
  obtain ⟨s, hs, hranged⟩ := List.mem_filterMap.1 he
  obtain ⟨range, hrange, rfl⟩ := Option.map_eq_some_iff.1 hranged
  exact ⟨hs, hrange⟩

namespace Sound
variable {d : Document} (hd : d.Sound)
include hd

theorem snd_ranged : d.ranged.map Prod.snd = d.scopes := by
  rw [ranged, List.map_filterMap]
  refine (List.filterMap_congr fun s hs => ?_).trans List.filterMap_some
  obtain ⟨range, hlocation, -⟩ := hd.scopesAt s hs
  simp [VariableScope.range?, hlocation, Location.of]

theorem ranged_within {e : Range × VariableScope} (he : e ∈ d.ranged) :
    e.1.start ≤ e.1.stop ∧ e.1.Within d.text.utf8ByteSize := by
  obtain ⟨hs, hrange⟩ := mem_ranged he
  obtain ⟨range, hlocation, hle, hwithin⟩ := hd.scopesAt e.2 hs
  rw [VariableScope.range?, hlocation] at hrange
  obtain rfl := Option.some.inj hrange
  exact ⟨hle, hwithin⟩

theorem finished_ranged : Finished d.ranged where
  range := fun _ he => (mem_ranged he).2
  forward := fun _ he => (hd.ranged_within he).1
  ordered := by
    rw [hd.snd_ranged]
    exact hd.ordered

theorem kept_ranged {e : Range × VariableScope} (he : e ∈ d.ranged) : e.2.Kept := by
  have hs := (mem_ranged he).1
  obtain ⟨range, hlocation, -⟩ := hd.scopesAt e.2 hs
  exact ⟨⟨_, range, hlocation⟩, hd.scopes e.2 hs⟩

/-- The variables that are bound at a reference are in the document. -/
theorem uri_scopeFor (r : Reference) : (d.context.scopeFor r).location.uri = d.uri := by
  rw [DocumentContext.scopeFor_eq]
  cases hscope : (r.scopeRange?.orElse fun _ => r.range?).bind
      (DocumentContext.around d.context.scopes) with
  | none =>
    obtain ⟨range, hlocation⟩ := hd.globalsAt
    exact congrArg Location.uri hlocation
  | some s =>
    obtain ⟨target, -, hs⟩ := Option.bind_eq_some_iff.1 hscope
    obtain ⟨range, hlocation, -⟩ := hd.scopesAt s (List.mem_of_mem_filter (mem_of_leastBy hs))
    exact congrArg Location.uri hlocation

theorem keptReference {r : Reference} (h : r ∈ d.references) (hspelled : r.Spelled) : r.Kept := by
  have hsound := hd.references r h
  obtain ⟨range, hlocation, -⟩ := hsound.located
  refine ⟨⟨_, range, hlocation⟩, ?_, hsound.scope⟩
  rcases hsound.types with htidy | ⟨name, hname⟩
  · exact htidy
  · rw [hname]
    refine TypeUnion.tidy_single (hspelled _ ?_)
    rw [hname]
    exact List.mem_singleton_self _

theorem uri_findVariable {r : Reference} (hr : r ∈ d.references) :
    ∀ s ∈ d.context.findVariable r, s.location.uri = d.uri := by
  intro s hs
  obtain ⟨range, hlocation, -⟩ := (hd.references r hr).located
  unfold DocumentContext.findVariable at hs
  split at hs
  · rw [List.mem_singleton.1 hs]
    exact congrArg Location.uri hlocation
  · exact absurd hs List.not_mem_nil

theorem uri_completeVariables (r : Reference) (keyword : String) :
    ∀ s ∈ d.context.completeVariables r keyword, s.location.uri = d.uri := by
  intro s hs
  obtain ⟨e, -, rfl⟩ := List.mem_map.1 hs
  exact hd.uri_scopeFor r

end Sound
end Document

/-- Symbols of the document are all read back. -/
theorem Symbol.map_asStored_of_eq {uri : String} {symbols : List Symbol}
    (h : ∀ s ∈ symbols, s.location.uri = uri) :
    symbols.map (asStored uri) = symbols.map normal :=
  List.map_congr_left fun s hs => if_pos (h s hs)

theorem Range.Within.keyed {size : Nat} {r : Range} (h : r.Within size)
    (hsize : size < 0x80000000) : r.Keyed :=
  ⟨Nat.lt_of_le_of_lt h.1 hsize, Nat.lt_of_le_of_lt h.2 hsize⟩

namespace Version.Records
variable {v : Version} {d : Document} (hr : v.Records d) (hd : d.Sound)
include hr hd

theorem placed {r : Reference} (h : r ∈ d.references) : r.Placed := by
  obtain ⟨range, hlocation, hwithin⟩ := (hd.references r h).located
  exact ⟨_, range, hlocation, hwithin.keyed hr.short⟩

section Rows
variable {rows : Rows} {last : String → Option Version} (h : Holds rows last)
  (hv : last d.uri = some v)
include h hv

/-- The stored references are found where those of the document are. -/
theorem run_findWhere {offset : UInt32} (hoffset : offset.toNat < 0x80000000)
    (accept : Reference → Bool) (haccept : ∀ r : Reference, accept r.normal = accept r) :
    (referenceTable.findWhere d.uri offset accept).run rows =
      .ok ((d.innermost offset accept).map Reference.normal) := by
  have hplaced : ∀ r ∈ v.references, r.Placed := by
    rw [hr.isOf.references]
    exact fun r hmem => hr.placed hd hmem
  have hfew : v.located.length ≤ 0x80000000 :=
    Nat.le_trans (List.length_filterMap_le _ _)
      (Nat.le_of_lt (hr.isOf.references ▸ hr.fewReferences))
  have hstores := h.stores_references hv (Version.keyed_located hplaced) hfew
    (by rw [hr.isOf.references]; exact hr.references)
  refine (hstores.run_findWhere hoffset accept).trans (congrArg Except.ok ?_)
  exact Version.innermost_located hr.isOf.references.symm hplaced offset haccept

theorem run_scopesOf :
    (Index.scopesOf d.uri).run rows = .ok (Finished.stored d.ranged) := by
  have hfew : d.ranged.length ≤ 0x80000000 := by
    rw [← List.length_map Prod.snd, hd.snd_ranged]
    exact Nat.le_of_lt hr.fewScopes
  have hscopes : v.scopes = d.ranged.map Prod.snd := by rw [hr.isOf.scopes, hd.snd_ranged]
  have hstores := h.stores_scopes hv hscopes (fun _ he => (Document.mem_ranged he).2)
    (fun _ he => (hd.ranged_within he).2.keyed hr.short) hfew
    (by rw [hr.isOf.scopes]; exact hr.scopes)
  exact hstores.run_ofDocument

end Rows
end Version.Records

namespace Workspace

/-- Whether the document is open in the first workspace and closed in the second one, where a
version of it is stored, and nothing else differs. -/
structure SameButOpen (last : String → Option Version) (v : Version) (d : Document)
    (opened closed : Workspace) : Prop where
  settings : opened.settings = closed.settings
  documents : opened.opened = closed.opened.opening d
  valid : closed.opened.Valid
  absent : closed.opened.get? d.uri = none
  before : Holds opened.store.rows last
  after : Holds closed.store.rows ((Operation.replace v).lastAfter last)
  located : ∀ uri w, last uri = some w → w.Located
  records : v.Records d
  sound : d.Sound

/-- Whether keys can be made of the names of all classes that members may be listed on. -/
structure Completes (last : String → Option Version) (d : Document) (opened : Workspace) :
    Prop where
  document : d.Completable
  buffers : ∀ e ∈ opened.opened.entries, ∀ s ∈ e.2.symbols, s.PlainSupertypes
  supertypes : ∀ uri w, last uri = some w → ∀ s ∈ w.symbols, s.PlainSupertypes
  indexNames : ∀ uri w, last uri = some w → ∀ s ∈ w.symbols, FitsText s.indexName

/-- Whether a listing of members has room for all that is stored or open. -/
def HasRoom (w : Workspace) : Prop := w.store.rows.size + w.opened.declared < UInt64.size

namespace SameButOpen
variable {last : String → Option Version} {v : Version} {d : Document} {opened closed : Workspace}
  (h : SameButOpen last v d opened closed)
include h

theorem nulFree : NulFree d.uri := h.records.isOf.uri ▸ h.records.valid.uri

theorem last_uri : (Operation.replace v).lastAfter last d.uri = some v := by
  rw [Operation.lastAfter, if_pos h.records.isOf.uri.symm]

theorem get?_opened : opened.opened.get? d.uri = some d := by
  rw [h.documents, OpenDocuments.opening, OrderedMap.get?_insert, if_pos rfl]

theorem alike : SymbolSource.Alike (Symbol.asStored d.uri) d.Knows opened.source closed.source := by
  rw [Workspace.source, h.documents]
  exact OpenDocuments.alike_opening h.sound h.records.isOf h.before h.after h.located h.nulFree
    h.records.names h.valid h.absent

/-! ## The document itself -/

theorem context : opened.context d.uri = .ok d.context ∧
    ∃ stored, closed.context d.uri = .ok stored ∧ d.context.ReadBack stored := by
  constructor
  · rw [Workspace.context, h.get?_opened]
  · have hrecord : (Index.document d.uri).run closed.store.rows = .ok (some v.record.normal) := by
      rw [h.after.run_document h.nulFree, h.last_uri]
      rfl
    have hscopes := h.records.run_scopesOf h.sound h.after h.last_uri
    refine ⟨.ofRecord v.record.normal (Finished.stored d.ranged), ?_, ?_⟩
    · simp only [Workspace.context, h.absent, ask, hrecord, hscopes, Except.mapError, bind,
        Except.bind]
      rfl
    · refine DocumentContext.readBack_of_finished h.sound.finished_ranged
        (fun e he => h.sound.kept_ranged he) h.sound.snd_ranged.symm h.sound.globals
        h.records.isOf.imports ?_
      exact congrArg VariableScope.normal h.records.isOf.globals

theorem referenceAt {offset : UInt32} (hoffset : offset.toNat < 0x80000000) :
    opened.referenceAt d.uri offset = .ok (d.referenceAt offset) ∧
      closed.referenceAt d.uri offset = .ok ((d.referenceAt offset).map Reference.normal) := by
  have hfind := h.records.run_findWhere h.sound h.after h.last_uri hoffset
    (fun _ => true) fun _ => rfl
  constructor
  · rw [Workspace.referenceAt, h.get?_opened]
  · rw [Workspace.referenceAt, h.absent]
    exact congrArg (Except.mapError IndexError.store) hfind

theorem callAt {offset : UInt32} (hoffset : offset.toNat < 0x80000000) :
    opened.callAt d.uri offset = .ok (d.callAt offset) ∧
      closed.callAt d.uri offset = .ok ((d.callAt offset).map Reference.normal) := by
  have hfind := h.records.run_findWhere h.sound h.after h.last_uri hoffset
    (fun r => r.kind == .argumentList) fun _ => rfl
  constructor
  · rw [Workspace.callAt, h.get?_opened]
  · rw [Workspace.callAt, h.absent]
    exact congrArg (Except.mapError IndexError.store) hfind

theorem documentSymbols : opened.documentSymbols d.uri = .ok d.symbolsInSourceOrder ∧
    closed.documentSymbols d.uri = .ok (d.symbolsInSourceOrder.map Symbol.normal) := by
  have hsymbols := h.records.isOf.symbols
  have hrun := h.after.run_documentSymbols h.last_uri h.records.names
    (fun s hs => (h.sound.symbols s (hsymbols ▸ hs)).table) (h.sound.located h.records.isOf)
    (by rw [hsymbols]; exact h.records.ranges)
  rw [hsymbols] at hrun
  constructor
  · rw [Workspace.documentSymbols, h.get?_opened]
  · rw [Workspace.documentSymbols, h.absent]
    exact congrArg (Except.mapError IndexError.store) hrun

/-- What a name means is found in both, in the form in which it was stored where it is closed. -/
theorem source_definition {stored : DocumentContext} (hback : d.context.ReadBack stored)
    {r : Reference} (hr : r ∈ d.references) (hspelled : r.Spelled) : ∃ found,
      opened.source.definition d.context r = .ok found ∧
      closed.source.definition stored r.normal = .ok (found.map (Symbol.asStored d.uri)) ∧
      (∀ s ∈ found, (s.asStored d.uri).label = s.label) ∧
      ∀ s ∈ found, (s.asStored d.uri).description? = s.description? := by
  have hkept := h.sound.keptReference hr hspelled
  by_cases hkind : r.kind = .variable
  · have hvariable (source : SymbolSource) (ctx : DocumentContext) {r : Reference}
        (hkind : r.kind = .variable) : source.definition ctx r = .ok (ctx.findVariable r) := by
      rw [SymbolSource.definition, hkind]
    have huri := h.sound.uri_findVariable hr
    refine ⟨_, hvariable _ _ hkind, ?_, fun s hs => ?_, fun s hs => ?_⟩
    · rw [hvariable _ _ (show r.normal.kind = _ from hkind), hback.findVariable hkept,
        Symbol.map_asStored_of_eq huri]
    · rw [Symbol.asStored, if_pos (huri s hs), (hback.tidy_findVariable r s hs).label_normal]
    · rw [Symbol.asStored, if_pos (huri s hs), Symbol.description?_normal]
  · obtain ⟨found, hfound, hfound', hknown⟩ := h.alike.definition d.context hkind
    exact ⟨found, hfound, (hback.definition hkept _ hkind).trans hfound',
      fun s hs => h.alike.kept.label s (hknown s hs),
      fun s hs => h.alike.kept.description s (hknown s hs)⟩

theorem definition {offset : UInt32} (hoffset : offset.toNat < 0x80000000)
    (hspelled : ∀ r ∈ d.referenceAt offset, r.Spelled) : ∃ found,
      opened.definition d.uri offset = .ok found ∧
      closed.definition d.uri offset = .ok (found.map (Symbol.asStored d.uri)) := by
  obtain ⟨hopened, hclosed⟩ := h.referenceAt hoffset
  obtain ⟨hcontext, stored, hstored, hback⟩ := h.context
  simp only [Workspace.definition, definitionOf, hopened, hclosed, hcontext, hstored, bind,
    Except.bind]
  cases hr : d.referenceAt offset with
  | none => exact ⟨[], rfl, rfl⟩
  | some r =>
    obtain ⟨found, hfound, hfound', -⟩ :=
      h.source_definition hback (Document.innermost_least hr).1.1 (hspelled r hr)
    refine ⟨found, ?_, ?_⟩
    · simp only [hfound]
      rfl
    · simp only [Option.map_some, hfound']
      rfl

theorem hover {offset : UInt32} (hoffset : offset.toNat < 0x80000000)
    (hspelled : ∀ r ∈ d.referenceAt offset, r.Spelled) :
    ∃ hover?, opened.hover d.uri offset = .ok hover? ∧ closed.hover d.uri offset = .ok hover? := by
  obtain ⟨hopened, hclosed⟩ := h.referenceAt hoffset
  obtain ⟨hcontext, stored, hstored, hback⟩ := h.context
  simp only [Workspace.hover, hopened, hclosed, hcontext, hstored, bind, Except.bind]
  cases hr : d.referenceAt offset with
  | none => exact ⟨none, rfl, rfl⟩
  | some r =>
    have hmem := (Document.innermost_least hr).1.1
    obtain ⟨found, hfound, hfound', hlabel, hdescription⟩ :=
      h.source_definition hback hmem (hspelled r hr)
    obtain ⟨hover?, hshown, hshown'⟩ := SymbolSource.exists_hover hfound hfound' hlabel
      hdescription (h.sound.keptReference hmem (hspelled r hr)).range?_normal
    refine ⟨hover?, ?_, ?_⟩
    · simp only [hshown]
      rfl
    · simp only [Option.map_some, hshown']
      rfl

theorem signatureHelp {offset : UInt32} (hoffset : offset.toNat < 0x80000000)
    (hspelled : ∀ call ∈ d.callAt offset, call.Spelled) :
    ∃ help?, opened.signatureHelp d.uri offset = .ok help? ∧
      closed.signatureHelp d.uri offset = .ok help? := by
  obtain ⟨hopened, hclosed⟩ := h.callAt hoffset
  obtain ⟨hcontext, stored, hstored, hback⟩ := h.context
  simp only [Workspace.signatureHelp, hopened, hclosed, hcontext, hstored, bind, Except.bind]
  cases hr : d.callAt offset with
  | none => exact ⟨none, rfl, rfl⟩
  | some call =>
    have hkept := h.sound.keptReference (Document.innermost_least hr).1.1 (hspelled call hr)
    obtain ⟨help?, hshown, hshown'⟩ := h.alike.signatureHelp_eq d.context call offset
    refine ⟨help?, ?_, ?_⟩
    · simp only [hshown]
      rfl
    · simp only [Option.map_some, hback.signatureHelp hkept, hshown']
      rfl

omit h in
theorem isMember_of_mem_completedKinds {r : Reference} {kind : TableKind}
    (hkind : kind ∈ SymbolSource.completedKinds r) : kind.isMember := by
  have hall : ∀ kind ∈ TableKind.members ++ [.methods, .properties], kind.isMember := by decide
  refine hall kind ?_
  unfold SymbolSource.completedKinds at hkind
  split at hkind
  · exact List.mem_append_left _ hkind
  · exact List.mem_append_right _ hkind

/-- Members are completed alike. -/
theorem source_completeMembers (hc : Completes last d opened) (hroom : opened.HasRoom)
    (hroom' : closed.HasRoom) {r : Reference}
    (hr : r ∈ d.references) {keyword : String} (hkeyword : NulFree keyword) (limit : Nat) :
    ∃ found, opened.source.completeMembers d.context r keyword limit = .ok found ∧
      closed.source.completeMembers d.context r keyword limit =
        .ok (found.map (Symbol.asStored d.uri)) := by
  have hlists : SymbolSource.ListsAlike (Symbol.asStored d.uri) d.Knows opened.source closed.source
      (SymbolSource.completedKinds r) keyword fun owner => NulFree owner ∧ AtFree owner := by
    rw [Workspace.source, h.documents]
    exact OpenDocuments.listsAlike_opening h.sound h.records.isOf h.before h.after h.located
      h.nulFree h.records.names h.valid h.absent hc.indexNames hc.document.indexNames
      hkeyword (h.documents ▸ hroom) hroom' fun kind hkind => isMember_of_mem_completedKinds hkind
  refine SymbolSource.completeMembers_alike h.alike hlists (fun name found hfound s hs => ?_)
    (hc.document.receivers r hr) limit
  rw [Workspace.source] at hfound
  obtain ⟨-, ⟨t, ⟨uri, w, hw, ht⟩, rfl⟩ | ⟨e, he, hs⟩⟩ :=
    OpenDocuments.mem_find_source h.before h.located _ hfound hs
  · exact Symbol.plainSupertypes_normal.2 (hc.supertypes uri w hw t (Version.declared_eq_some ht).1)
  · exact hc.buffers e he s hs

theorem completion (hc : Completes last d opened) (hroom : opened.HasRoom)
    (hroom' : closed.HasRoom) {offset : UInt32} (hoffset : offset.toNat < 0x80000000)
    (hspelled : ∀ r ∈ d.referenceAt offset, r.Spelled)
    (hkind : ∀ r ∈ d.referenceAt offset, r.kind = .variable ∨ r.kind.isMember) :
    ∃ found, opened.completion d.uri offset = .ok found ∧
      closed.completion d.uri offset = .ok (found.map (Symbol.asStored d.uri)) := by
  obtain ⟨hopened, hclosed⟩ := h.referenceAt hoffset
  obtain ⟨hcontext, stored, hstored, hback⟩ := h.context
  simp only [Workspace.completion, completionOf, hopened, hclosed, hcontext, hstored, h.settings,
    bind, Except.bind]
  cases hr : d.referenceAt offset with
  | none => exact ⟨[], rfl, rfl⟩
  | some r =>
    have hmem := (Document.innermost_least hr).1.1
    have hkept := h.sound.keptReference hmem (hspelled r hr)
    simp only [Option.map_some]
    rcases hkind r hr with hkind | hkind
    · have hkind' : r.normal.kind = .variable := hkind
      rw [SymbolSource.completion_of_variable hkind, SymbolSource.completion_of_variable hkind',
        hback.completeVariables hkept, hkept.name_normal, hkept.range?_normal,
        ← Symbol.map_asStored_of_eq (h.sound.uri_completeVariables r _), ← List.map_take]
      exact ⟨_, rfl, rfl⟩
    · have hkind' : r.normal.kind.isMember := hkind
      have hrange : r.normal.memberRange? = r.memberRange? := rfl
      obtain ⟨found, hfound, hfound'⟩ := h.source_completeMembers hc hroom hroom' hmem
        (nulFree_typedKeyword (hc.document.names r hmem) r.memberRange? offset)
        closed.settings.completion.limit.toNat
      rw [SymbolSource.completion_of_member hkind, SymbolSource.completion_of_member hkind',
        hkept.name_normal, hrange, hback.completeMembers hkept, hfound, hfound']
      refine ⟨found.take closed.settings.completion.limit.toNat, rfl, ?_⟩
      rw [List.map_take]
      rfl

/-! ## Other documents -/

section Elsewhere
variable {uri : String} (hne : uri ≠ d.uri)
include hne

theorem get?_eq : opened.opened.get? uri = closed.opened.get? uri := by
  rw [h.documents, OpenDocuments.opening, OrderedMap.get?_insert, if_neg hne]

theorem last_eq : (Operation.replace v).lastAfter last uri = last uri := by
  rw [Operation.lastAfter, if_neg fun heq => hne (heq.trans h.records.isOf.uri)]

variable (huri : NulFree uri)
include huri

theorem context_eq : closed.context uri = opened.context uri := by
  have hdocument : (Index.document uri).run closed.store.rows =
      (Index.document uri).run opened.store.rows := by
    rw [h.after.run_document huri, h.before.run_document huri, h.last_eq hne]
  have hscopes := h.before.run_scopesOf_eq h.after huri (h.last_eq hne)
  simp only [Workspace.context, h.get?_eq hne, ask, hdocument, hscopes]

theorem referenceAt_eq (offset : UInt32) :
    closed.referenceAt uri offset = opened.referenceAt uri offset := by
  have hfind := h.before.run_findWhere_eq h.after huri (h.last_eq hne) offset fun _ => true
  have hask : closed.ask (Index.referenceAt uri offset) =
      opened.ask (Index.referenceAt uri offset) :=
    congrArg (Except.mapError IndexError.store) hfind.symm
  rw [Workspace.referenceAt, Workspace.referenceAt, h.get?_eq hne, hask]

theorem callAt_eq (offset : UInt32) : closed.callAt uri offset = opened.callAt uri offset := by
  have hfind := h.before.run_findWhere_eq h.after huri (h.last_eq hne) offset
    fun r => r.kind == .argumentList
  have hask : closed.ask (Index.callAt uri offset) = opened.ask (Index.callAt uri offset) :=
    congrArg (Except.mapError IndexError.store) hfind.symm
  rw [Workspace.callAt, Workspace.callAt, h.get?_eq hne, hask]

/-- A variable means the same, and any other name the same in the form that is stored. -/
theorem definition_eq (offset : UInt32) :
    closed.definition uri offset = opened.definition uri offset ∨
      closed.definition uri offset =
        (opened.definition uri offset).map (List.map (Symbol.asStored d.uri)) := by
  simp only [Workspace.definition, definitionOf, h.referenceAt_eq hne huri, h.context_eq hne huri]
  cases opened.referenceAt uri offset with
  | error e => exact .inl rfl
  | ok r? =>
    cases r? with
    | none => exact .inl rfl
    | some r =>
      cases opened.context uri with
      | error e => exact .inl rfl
      | ok ctx =>
        by_cases hkind : r.kind = .variable
        · refine .inl ?_
          simp only [bind, Except.bind, SymbolSource.definition, hkind]
        · obtain ⟨found, hfound, hfound', -⟩ := h.alike.definition ctx hkind
          refine .inr ?_
          simp only [bind, Except.bind, hfound, hfound']
          rfl

theorem hover_eq (offset : UInt32) : closed.hover uri offset = opened.hover uri offset := by
  simp only [Workspace.hover, h.referenceAt_eq hne huri, h.context_eq hne huri]
  cases opened.referenceAt uri offset with
  | error e => rfl
  | ok r? =>
    cases r? with
    | none => rfl
    | some r =>
      cases opened.context uri with
      | error e => rfl
      | ok ctx =>
        by_cases hkind : r.kind = .variable
        · simp only [bind, Except.bind, SymbolSource.hover, SymbolSource.definition, hkind]
        · obtain ⟨found, hfound, hfound', hknown⟩ := h.alike.definition ctx hkind
          obtain ⟨hover?, hshown, hshown'⟩ := SymbolSource.exists_hover hfound hfound'
            (fun s hs => h.alike.kept.label s (hknown s hs))
            (fun s hs => h.alike.kept.description s (hknown s hs)) rfl
          simp only [bind, Except.bind, hshown, hshown']

theorem signatureHelp_eq (offset : UInt32) :
    closed.signatureHelp uri offset = opened.signatureHelp uri offset := by
  simp only [Workspace.signatureHelp, h.callAt_eq hne huri, h.context_eq hne huri]
  cases opened.callAt uri offset with
  | error e => rfl
  | ok call? =>
    cases call? with
    | none => rfl
    | some call =>
      cases opened.context uri with
      | error e => rfl
      | ok ctx =>
        obtain ⟨help?, hshown, hshown'⟩ := h.alike.signatureHelp_eq ctx call offset
        simp only [bind, Except.bind, hshown, hshown']

end Elsewhere

end SameButOpen

end Workspace
end PhpIndex
