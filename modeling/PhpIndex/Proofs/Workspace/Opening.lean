import PhpIndex.Proofs.Workspace.Answers
import PhpIndex.Workspace.Indexing

/-!
# Opening a document

To open a document with the text that was indexed changes no answer: neither what is asked at its
offsets nor what other documents ask of its symbols. Only the name of a member that begins with a
separator comes back from the store as another name, and then may mean something else.
Main statements: `opening_keeps_answers`, `opening_changes_answers`.
-/
namespace PhpIndex
namespace Workspace

/-- Whether the names of what is found at the offset are spelled the same after they were stored:
only those of members may not be, where they begin with a separator. -/
def AsksSpelled (w : Workspace) (uri : String) (offset : UInt32) : Prop :=
  ∀ r, w.referenceAt uri offset = .ok (some r) → r.Spelled

/-- Whether questions about a document, and what other documents ask of its symbols, have the same
answers in both workspaces, where the second one gives references and symbols of the document as
they are read back. -/
structure KeepsAnswers (uri : String) (opened closed : Workspace) : Prop where
  referenceAt : ∀ offset : UInt32, offset.toNat < 0x80000000 →
    ∃ r?, opened.referenceAt uri offset = .ok r? ∧
      closed.referenceAt uri offset = .ok (r?.map Reference.normal)
  definition : ∀ offset : UInt32, offset.toNat < 0x80000000 → opened.AsksSpelled uri offset →
    ∃ found, opened.definition uri offset = .ok found ∧
      closed.definition uri offset = .ok (found.map (Symbol.asStored uri))
  hover : ∀ offset : UInt32, offset.toNat < 0x80000000 → opened.AsksSpelled uri offset →
    ∃ hover?, opened.hover uri offset = .ok hover? ∧ closed.hover uri offset = .ok hover?
  signatureHelp : ∀ offset : UInt32, offset.toNat < 0x80000000 →
    (∀ call, opened.callAt uri offset = .ok (some call) → call.Spelled) →
      ∃ help?, opened.signatureHelp uri offset = .ok help? ∧
        closed.signatureHelp uri offset = .ok help?
  documentSymbols : ∃ symbols, opened.documentSymbols uri = .ok symbols ∧
    closed.documentSymbols uri = .ok (symbols.map (Symbol.asStored uri))
  completion : opened.HasRoom → closed.HasRoom →
    ∀ offset : UInt32, offset.toNat < 0x80000000 → opened.AsksSpelled uri offset →
      (∀ r, opened.referenceAt uri offset = .ok (some r) → r.kind = .variable ∨ r.kind.isMember) →
        ∃ found, opened.completion uri offset = .ok found ∧
          closed.completion uri offset = .ok (found.map (Symbol.asStored uri))
  elsewhere : ∀ other, other ≠ uri → NulFree other → ∀ offset,
    (closed.definition other offset = opened.definition other offset ∨
      closed.definition other offset =
        (opened.definition other offset).map (List.map (Symbol.asStored uri))) ∧
    closed.hover other offset = opened.hover other offset ∧
    closed.signatureHelp other offset = opened.signatureHelp other offset

namespace SameButOpen
variable {last : String → Option Version} {v : Version} {d : Document} {opened closed : Workspace}
  (h : SameButOpen last v d opened closed)
include h

theorem forall_referenceAt {P : Reference → Prop} {offset : UInt32}
    (hoffset : offset.toNat < 0x80000000)
    (hP : ∀ r, opened.referenceAt d.uri offset = .ok (some r) → P r) :
    ∀ r ∈ d.referenceAt offset, P r := by
  intro r hr
  refine hP r ?_
  rw [(h.referenceAt hoffset).1, hr]

theorem keepsAnswers (hc : Completes last d opened) : KeepsAnswers d.uri opened closed where
  referenceAt _ hoffset := ⟨_, h.referenceAt hoffset⟩
  definition _ hoffset hspelled := h.definition hoffset (h.forall_referenceAt hoffset hspelled)
  hover _ hoffset hspelled := h.hover hoffset (h.forall_referenceAt hoffset hspelled)
  signatureHelp _ hoffset hspelled := by
    refine h.signatureHelp hoffset fun call hcall => hspelled call ?_
    rw [(h.callAt hoffset).1, hcall]
  documentSymbols := by
    have hsymbols : ∀ s ∈ d.symbolsInSourceOrder, s.location.uri = d.uri := by
      intro s hs
      have hmem : s ∈ v.symbols := h.records.isOf.symbols ▸ List.mem_mergeSort.1 hs
      rw [((h.sound.located h.records.isOf).location_normal hmem).2, h.records.isOf.uri]
    rw [h.documentSymbols.1, h.documentSymbols.2, ← Symbol.map_asStored_of_eq hsymbols]
    exact ⟨_, rfl, rfl⟩
  completion hroom hroom' _ hoffset hspelled hkind :=
    h.completion hc hroom hroom' hoffset (h.forall_referenceAt hoffset hspelled)
      (h.forall_referenceAt hoffset hkind)
  elsewhere _ hne huri offset :=
    ⟨h.definition_eq hne huri offset, h.hover_eq hne huri offset,
      h.signatureHelp_eq hne huri offset⟩

end SameButOpen

end Workspace

/-- Whether keys can be made of the names of the supertypes in what the operation stores. -/
def Operation.PlainSupertypes : Operation → Prop
  | .replace v => ∀ s ∈ v.symbols, s.PlainSupertypes
  | .remove _ => True

instance : DecidablePred Operation.PlainSupertypes
  | .replace v => inferInstanceAs (Decidable (∀ s ∈ v.symbols, s.PlainSupertypes))
  | .remove _ => inferInstanceAs (Decidable True)

theorem Operation.lastAfter_replace_self (v : Version) (last : String → Option Version) :
    (replace v).lastAfter ((replace v).lastAfter last) = (replace v).lastAfter last := by
  funext uri
  simp only [lastAfter]
  split <;> rfl

/-- After any run and whatever else is open, a document that is opened with the text that was
indexed has the answers that it had when it was closed, and so have other documents. What was
stored of it before makes no difference. -/
theorem opening_keeps_answers {ops : List Operation} (hops : ∀ op ∈ ops, op.Valid)
    (hlocated : ∀ op ∈ ops, op.Located) (hfit : ∀ op ∈ ops, op.NamesFit)
    (hplain : ∀ op ∈ ops, op.PlainSupertypes) {o : OpenDocuments} (ho : o.Valid)
    (hbuffers : ∀ e ∈ o.entries, ∀ s ∈ e.2.symbols, s.PlainSupertypes) {h : Host}
    {uri text : String} (hclosed : o.get? uri = none) (hnested : (h.grammar text).nested)
    (hroot : (h.grammar text).range.Within text.utf8ByteSize) {v : Version}
    (hv : v.Records (h.parse uri text h.now)) (hnames : (h.parse uri text h.now).Completable)
    (settings : Settings) :
    ∃ s s', Store.volatile.runAll ops = .ok s ∧
      s.replaceDocument v.record v.symbols v.references v.scopes = .ok s' ∧
      ∀ before ∈ [s, s'], Workspace.KeepsAnswers uri
        (Workspace.openDocument h ⟨settings, before, o⟩ uri text).1 ⟨settings, s', o⟩ := by
  obtain ⟨s, hrun, hs⟩ := Holds.runAll (s := .volatile) Holds.empty hops
  obtain ⟨s', hreplace, hs'⟩ := hs.run (show (Operation.replace v).Valid from hv.valid)
  let d := h.parse uri text h.now
  have hsound : d.Sound := Document.sound_ofTree uri text h.now hnested hroot
  have hopen {last : String → Option Version} {before : Store} (hbefore : Holds before.rows last)
      (hafter : Holds s'.rows ((Operation.replace v).lastAfter last))
      (hlast : ∀ uri w, last uri = some w → w.Located ∧
        (∀ x ∈ w.symbols, x.PlainSupertypes) ∧ ∀ x ∈ w.symbols, FitsText x.indexName) :
      Workspace.KeepsAnswers uri (Workspace.openDocument h ⟨settings, before, o⟩ uri text).1
        ⟨settings, s', o⟩ := by
    have hsame : Workspace.SameButOpen last v d
        (Workspace.openDocument h ⟨settings, before, o⟩ uri text).1 ⟨settings, s', o⟩ :=
      ⟨rfl, rfl, ho, hclosed, hbefore, hafter, fun u w hw => (hlast u w hw).1, hv, hsound⟩
    refine hsame.keepsAnswers ⟨hnames, fun e he => ?_, fun u w hw => (hlast u w hw).2.1,
      fun u w hw => (hlast u w hw).2.2⟩
    rcases OrderedMap.mem_insertEntry he with rfl | he
    · exact hnames.supertypes
    · exact hbuffers e he
  have hlast : ∀ u w, lastVersion ops u = some w → w.Located ∧
      (∀ x ∈ w.symbols, x.PlainSupertypes) ∧ ∀ x ∈ w.symbols, FitsText x.indexName := by
    intro u w hw
    have hop := replace_mem_of_lastVersion hw
    exact ⟨hlocated _ hop, hplain _ hop, hfit _ hop⟩
  refine ⟨s, s', hrun, hreplace, fun before hbefore => ?_⟩
  -- Below the buffer are the rows from before the text was stored, or those with it.
  rcases List.mem_cons.1 hbefore with rfl | hbefore
  · exact hopen hs hs' hlast
  · obtain rfl := List.mem_singleton.1 hbefore
    refine hopen hs' ((Operation.lastAfter_replace_self v _).symm ▸ hs') ?_
    refine forall_lastAfter hlast ⟨hsound.located hv.isOf, ?_, ?_⟩
    · rw [hv.isOf.symbols]
      exact hnames.supertypes
    · rw [hv.isOf.symbols]
      exact hnames.indexNames

/-! ## A property that is used by its name -/

/-- The tree of a class with a property and a method that uses it, where the name of the property
is written in these nodes and its use ends at the offset. -/
def usageTree (name : List TreeRow) (stop : UInt32) : SyntaxTree :=
  let token (depth : Nat) (kind : String) (start stop : UInt32) : TreeRow :=
    ⟨depth, kind, ⟨start, stop⟩, none⟩
  let part (depth : Nat) (kind : String) (start stop : UInt32) (field : String) : TreeRow :=
    ⟨depth, kind, ⟨start, stop⟩, some field⟩
  .ofRows (
    [token 0 "program" 0 62, token 1 "php_tag" 0 5, token 1 "class_declaration" 6 62,
     token 2 "class" 6 11, part 2 "name" 12 13 "name", part 2 "declaration_list" 14 62 "body",
     token 3 "\x7b" 14 15, token 3 "property_declaration" 16 28,
     token 4 "visibility_modifier" 16 22, token 5 "public" 16 22,
     token 4 "property_element" 23 27, part 5 "variable_name" 23 27 "name", token 6 "$" 23 24,
     token 6 "name" 24 27, token 4 ";" 27 28, token 3 "method_declaration" 29 60,
     token 4 "function" 29 37, part 4 "name" 38 39 "name",
     part 4 "formal_parameters" 39 41 "parameters", token 5 "(" 39 40, token 5 ")" 40 41,
     part 4 "compound_statement" 42 60 "body", token 5 "\x7b" 42 43,
     token 5 "expression_statement" 44 58, token 6 "member_access_expression" 44 stop,
     part 7 "variable_name" 44 49 "object", token 8 "$" 44 45, token 8 "name" 45 49,
     token 7 "->" 49 51] ++ name ++
    [token 6 ";" 57 58, token 5 "\x7d" 59 60, token 3 "\x7d" 61 62])

/-- A host whose grammar finds one tree. -/
def hostOf (tree : SyntaxTree) : Host := ⟨fun _ => tree, .empty, "", 0⟩

/-- The property that is used. -/
def usedProperty : Symbol :=
  .property ⟨"FOO", "A", .of "a" ⟨23, 27⟩, {}, { isPublic := true }, .empty, none⟩

def plainUsage : String :=
  "<?php class A \x7b public $FOO; function m() \x7b $this->  FOO ; \x7d \x7d"

def plainUsageTree : SyntaxTree := usageTree [⟨7, "name", ⟨53, 56⟩, some "name"⟩] 56

/-- An earlier version of the text, without the method, is stored. -/
theorem opening_keeps_answers_plain :
    let h := hostOf plainUsageTree
    let d := h.parse "a" plainUsage h.now
    let v := d.version 0
    let ops := [.replace (.ofSymbols "a" [usedProperty])]
    (∀ op ∈ ops, op.Valid ∧ op.Located ∧ op.NamesFit ∧ op.PlainSupertypes) ∧
      ((h.grammar plainUsage).nested ∧
        (h.grammar plainUsage).range.Within plainUsage.utf8ByteSize ∧ v.Records d ∧
        d.Completable) ∧
      ∃ s s', Store.volatile.runAll ops = .ok s ∧
        s.replaceDocument v.record v.symbols v.references v.scopes = .ok s' ∧
        ∀ before ∈ [s, s'], Workspace.KeepsAnswers "a"
          (Workspace.openDocument h ⟨.standard 1, before, .empty⟩ "a" plainUsage).1
          ⟨.standard 1, s', .empty⟩ := by
  intro h d v ops
  have hops : ∀ op ∈ ops, op.Valid ∧ op.Located ∧ op.NamesFit ∧ op.PlainSupertypes := by decide
  have hd : (h.grammar plainUsage).nested ∧
      (h.grammar plainUsage).range.Within plainUsage.utf8ByteSize ∧ v.Records d ∧
      d.Completable := by
    decide +kernel
  obtain ⟨hnested, hroot, hv, hnames⟩ := id hd
  exact ⟨hops, hd, opening_keeps_answers (fun op hop => (hops op hop).1)
    (fun op hop => (hops op hop).2.1) (fun op hop => (hops op hop).2.2.1)
    (fun op hop => (hops op hop).2.2.2) ⟨by decide, by decide⟩ (by decide) rfl hnested hroot hv
    hnames (.standard 1)⟩

/-- The same text with a separator in front of the name. -/
def absoluteUsage : String :=
  "<?php class A \x7b public $FOO; function m() \x7b $this->\x7b\\FOO\x7d; \x7d \x7d"

def absoluteUsageTree : SyntaxTree := usageTree
  [⟨7, "\x7b", ⟨51, 52⟩, none⟩, ⟨7, "qualified_name", ⟨52, 56⟩, some "name"⟩,
   ⟨8, "\\", ⟨52, 53⟩, some "prefix"⟩, ⟨8, "name", ⟨53, 56⟩, none⟩, ⟨7, "\x7d", ⟨56, 57⟩, none⟩] 57

/-- What is read of it. -/
def absoluteDocument : Document := (hostOf absoluteUsageTree).parse "a" absoluteUsage 0

/-- The use of the property by this name. -/
def usageReference (name : TypeName) : Reference where
  kind := .propertyAccess
  types := .single name
  location := .of "a" ⟨44, 56⟩
  scope? := some (.single (.ofAbsolute "A"))
  scopeRange? := some ⟨29, 60⟩
  memberRange? := some ⟨52, 56⟩

/-- The workspace in which the text is indexed and closed. -/
def closedUsage : Workspace where
  settings := .standard 1
  store := ((Operation.replace (absoluteDocument.version 0)).run .volatile).toOption.getD .volatile
  opened := .empty

/-- The same workspace when the text was opened. -/
def openedUsage : Workspace :=
  (Workspace.openDocument (hostOf absoluteUsageTree) closedUsage "a" absoluteUsage).1

/-- A property of a class without supertypes is looked for on that class alone. -/
theorem Workspace.definition_of_base {w : Workspace} {uri owner : String} {offset : UInt32}
    {ctx : DocumentContext} {r : Reference} {found : List Symbol}
    (hr : w.referenceAt uri offset = .ok (some r)) (hctx : w.context uri = .ok ctx)
    (hkind : r.kind = .propertyAccess) (hname : r.name.isEmpty = false)
    (howner : ctx.receivers r = [owner]) (hbase : w.source.supertypes owner = .ok [])
    (hfind : w.source.find .properties (memberKey owner r.name) = .ok found) :
    w.definition uri offset = .ok (Symbol.candidates found) := by
  have hnearest : w.source.findNearest [.properties] r.name [owner] = .ok found := by
    cases found <;> simp [SymbolSource.findNearest, hfind, bind, Except.bind, pure, Except.pure]
  have hmembers : w.source.findMembers ctx r [.properties] = .ok (Symbol.candidates found) := by
    rw [SymbolSource.findMembers_of_receivers hname howner hbase, hnearest]
    rfl
  simp only [Workspace.definition, definitionOf, hr, hctx, SymbolSource.definition, hkind,
    hmembers, bind, Except.bind]
  rfl

theorem definition_openedUsage : openedUsage.definition "a" 54 = .ok [] := by
  -- Ancestry is by well-founded recursion, so that only what it reads can be evaluated.
  have hreads : openedUsage.referenceAt "a" 54 =
        .ok (some (usageReference (.verbatim "\\FOO"))) ∧
      absoluteDocument.context.receivers (usageReference (.verbatim "\\FOO")) = ["A"] ∧
      openedUsage.source.supertypes "A" = .ok [] ∧
      openedUsage.source.find .properties "A@\\FOO" = .ok [] := by
    decide +kernel
  obtain ⟨hreference, hreceivers, hbase, hnone⟩ := hreads
  rw [Workspace.definition_of_base hreference rfl rfl (by decide) hreceivers hbase hnone]
  exact congrArg Except.ok (Symbol.candidates_eq_self .nil .nil)

theorem definition_closedUsage : closedUsage.definition "a" 54 = .ok [usedProperty] := by
  have hreads : closedUsage.referenceAt "a" 54 =
        .ok (some (usageReference (.ofAbsolute "FOO"))) ∧
      closedUsage.context "a" = .ok absoluteDocument.context ∧
      absoluteDocument.context.receivers (usageReference (.ofAbsolute "FOO")) = ["A"] ∧
      closedUsage.source.supertypes "A" = .ok [] ∧
      closedUsage.source.find .properties "A@FOO" = .ok [usedProperty] := by
    decide +kernel
  obtain ⟨hreference, hcontext, hreceivers, hbase, hone⟩ := hreads
  rw [Workspace.definition_of_base hreference hcontext rfl (by decide) hreceivers hbase hone]
  exact congrArg Except.ok
    (Symbol.candidates_eq_self (List.pairwise_singleton _ _) (List.nodup_singleton _))

/-- The separator in front of the name is not stored, so that the name means a property where the
document is closed and nothing where it is open. -/
theorem opening_changes_answers :
    let h := hostOf absoluteUsageTree
    let d := h.parse "a" absoluteUsage h.now
    let v := d.version 0
    ((h.grammar absoluteUsage).nested ∧
      (h.grammar absoluteUsage).range.Within absoluteUsage.utf8ByteSize ∧
      d.scopes.map VariableScope.range? = [some ⟨29, 60⟩] ∧ v.Records d ∧ d.Completable) ∧
    ∃ s, Store.volatile.replaceDocument v.record v.symbols v.references v.scopes = .ok s ∧
      let closed : Workspace := ⟨.standard 1, s, .empty⟩
      (Workspace.openDocument h closed "a" absoluteUsage).1.definition "a" 54 = .ok [] ∧
        closed.definition "a" 54 = .ok [usedProperty] := by
  intro h d v
  refine ⟨by decide +kernel, closedUsage.store, ?_, definition_openedUsage, definition_closedUsage⟩
  decide +kernel

end PhpIndex
