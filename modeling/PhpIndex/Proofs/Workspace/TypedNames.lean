import PhpIndex.Proofs.Extract.Written
import PhpIndex.Proofs.Lookup.Limits
import PhpIndex.Proofs.Text.Boundaries
import PhpIndex.Proofs.Workspace.LimitedSearch

/-!
# Completion of names that are typed

What a completion looks for at the top level is cut out of the name that a reference was resolved
to, at the distance of the cursor from its end. This is what was typed of the last segment where
the resolved name ends in that segment, and then everything that is listed has a word that begins
with it, whatever the limit. An alias that another name was resolved to is looked for by letters
that were not typed.
Main statement: `completes_typed`.
-/
namespace PhpIndex

/-! ## What was typed -/

namespace Text

theorem utf8ByteSize_of_slice? {text piece : String} {start stop : Nat}
    (h : slice? text start stop = some piece) :
    start ≤ stop ∧ start + piece.utf8ByteSize = stop := by
  unfold slice? at h
  split at h
  next hbounds =>
    obtain ⟨hle, hstop⟩ := hbounds
    unfold String.fromUTF8? at h
    split at h
    next hvalid =>
      cases h
      have hsize : (text.toUTF8.extract start stop).size = stop - start :=
        ByteArray.size_extract.trans (congrArg (· - start) (Nat.min_eq_left hstop))
      refine ⟨hle, ?_⟩
      change start + (text.toUTF8.extract start stop).size = stop
      omega
    · cases h
  · cases h

theorem takeBytes_utf8ByteSize (front back : String) :
    takeBytes front.utf8ByteSize (front ++ back) = front := by
  rw [takeBytes, ← Position.byteLength_toList, String.toList_append,
    Position.takeBytes_byteLength (List.prefix_append _ _), String.ofList_toList]

end Text

/-- If the name is the end of what is written, what was typed of it is what stands of it in front
of the cursor. -/
theorem typedKeyword_of_slice? {source lead typed rest : String} {range : Range} {offset : UInt32}
    (htext : Text.slice? source range.start.toNat range.stop.toNat = some (lead ++ typed ++ rest))
    (hoffset : offset.toNat = range.start.toNat + lead.utf8ByteSize + typed.utf8ByteSize) :
    typedKeyword (typed ++ rest) (some range) offset = typed := by
  obtain ⟨hle, hsize⟩ := Text.utf8ByteSize_of_slice? htext
  rw [String.utf8ByteSize_append, String.utf8ByteSize_append] at hsize
  have hstart : range.start ≤ offset := UInt32.le_iff_toNat_le.2 (by omega)
  have hstop : offset ≤ range.stop := UInt32.le_iff_toNat_le.2 (by omega)
  have hcontains : range.contains offset = true := by
    rw [Range.contains, decide_eq_true hstart, decide_eq_true hstop]
    rfl
  have htyped : (offset - range.start).toNat = lead.utf8ByteSize + typed.utf8ByteSize := by
    rw [UInt32.toNat_sub_of_le _ _ hstart]
    omega
  have hlength : range.length.toNat =
      lead.utf8ByteSize + typed.utf8ByteSize + rest.utf8ByteSize := by
    rw [Range.length, if_pos (UInt32.le_iff_toNat_le.2 hle),
      UInt32.toNat_sub_of_le _ _ (UInt32.le_iff_toNat_le.2 hle)]
    omega
  have hkept : min (lead.utf8ByteSize + typed.utf8ByteSize -
      (lead.utf8ByteSize + typed.utf8ByteSize + rest.utf8ByteSize -
        (typed.utf8ByteSize + rest.utf8ByteSize))) (typed.utf8ByteSize + rest.utf8ByteSize) =
      typed.utf8ByteSize := by
    omega
  simp only [typedKeyword, hcontains, if_true, htyped, hlength, String.utf8ByteSize_append, hkept]
  exact Text.takeBytes_utf8ByteSize typed rest

/-! ## What is listed -/

/-- A search finds nothing but what matches, with any limit. -/
theorem Holds.run_search_matches {rows : Rows} {last : String → Option Version}
    (h : Holds rows last)
    (hnames : ∀ uri v, last uri = some v → ∀ s ∈ v.symbols, FitsText s.indexName)
    (kind : TableKind) {scope keyword : String} (hscope : AtFree scope)
    (hkeyword : NulFree keyword) (limit : Nat) :
    ∃ found, (Index.search kind scope keyword limit).run rows = .ok found ∧
      ∀ x ∈ found, x.Matches scope keyword := by
  obtain ⟨entries, hentries, hmem⟩ :=
    h.run_words_search hnames kind hscope hkeyword (Nat.le_refl rows.size)
  have : Nonempty Symbol := ⟨rangeless "" ""⟩
  choose! symbol hlive hname hmatches using fun e (he : e ∈ entries) => (hmem e).1 he
  have hreads := Query.run_forEach_eq_map rows (l := entries.take limit)
    (f := fun e : CompletionEntry => (KindTables.of kind).declarations.get e.uri e.name)
    (g := fun e => some (symbol e).normal) fun e he => by
      have he := List.mem_of_mem_take he
      obtain ⟨v, hv, hdeclared⟩ := id (hlive e he)
      rw [h.run_declaration ((hlive e he).nulFree h) kind e.name, ← hname e he, hv,
        Option.bind_some, hdeclared]
      rfl
  refine ⟨_, (Index.run_search_take hentries limit).trans (Query.run_bind_eq_ok rows hreads),
    fun x hx => ?_⟩
  obtain ⟨_, hread, hx⟩ := List.mem_filterMap.1 (Symbol.mem_candidates.1 hx)
  obtain ⟨e, he, rfl⟩ := List.mem_map.1 hread
  cases hx
  exact Symbol.matches_normal.2 (hmatches e (List.mem_of_mem_take he))

theorem OpenDocuments.search_matches {rows : Rows} {last : String → Option Version}
    (h : Holds rows last)
    (hnames : ∀ uri v, last uri = some v → ∀ s ∈ v.symbols, FitsText s.indexName)
    {o : OpenDocuments} (ho : o.Valid) (kind : TableKind) {scope keyword : String}
    (hscope : AtFree scope) (hkeyword : NulFree keyword) (limit : Nat) :
    ∃ found, (o.source rows).search kind scope keyword limit = .ok found ∧
      ∀ x ∈ found, x.Matches scope keyword := by
  unfold source
  split
  · exact h.run_search_matches hnames kind hscope hkeyword limit
  · obtain ⟨hidden, hhidden⟩ := run_shadowed h ho kind
    obtain ⟨stored, hstored, hmatches⟩ :=
      h.run_search_matches hnames kind hscope hkeyword (limit + hidden)
    refine ⟨(o.merge stored (o.matching kind scope keyword)).take limit, ?_, fun x hx => ?_⟩
    · change o.search rows kind scope keyword limit = _
      rw [search, hhidden]
      simp only [bind, Except.bind, Index.search_lower, hstored]
      rfl
    · have hx := Symbol.mem_candidates.1 (List.mem_of_mem_take hx)
      rcases List.mem_append.1 hx with hx | hx
      · exact hmatches x (List.mem_filter.1 hx).1
      · exact (mem_matching.1 hx).1

namespace SymbolSource

/-- What is listed for a name that is typed was found by a search for what was typed of it. -/
theorem completion_matches {source : SymbolSource} {query : String}
    (hsearch : ∀ kind limit, ∃ found, source.search kind "" query limit = .ok found ∧
      ∀ x ∈ found, x.Matches "" query)
    {r : Reference} {offset : UInt32} (hr : Typed query r offset) (ctx : DocumentContext)
    (limit : Nat) :
    ∃ found, source.completion ctx r offset limit = .ok found ∧
      ∀ x ∈ found, x.Matches "" query := by
  choose found hfound hmatches using hsearch
  have hlists : TableKind.topLevel.mapM (fun kind => source.search kind "" query limit) =
      .ok (TableKind.topLevel.map fun kind => found kind limit) :=
    mapM_eq_map fun kind _ => hfound kind limit
  refine ⟨(Symbol.candidates (TableKind.topLevel.map fun kind => found kind limit).flatten).take
    limit, ?_, fun x hx => ?_⟩
  · rw [completion_of_typed hr, workspaceSymbols, searchTopLevel, hlists]
    rfl
  · have hx := Symbol.mem_candidates.1 (List.mem_of_mem_take hx)
    obtain ⟨list, hlist, hx⟩ := List.mem_flatten.1 hx
    obtain ⟨kind, -, rfl⟩ := List.mem_map.1 hlist
    exact hmatches kind limit x hx

end SymbolSource

/-! ## Names in a document -/

/-- How a name is written around a cursor in its last segment: what leads up to the segment, what
was typed of it, and the rest of it. -/
structure WrittenAround (source : String) (range : Range) (offset : UInt32)
    (lead typed rest : String) : Prop where
  text : Text.slice? source range.start.toNat range.stop.toNat = some (lead ++ typed ++ rest)
  offset : offset.toNat = range.start.toNat + lead.utf8ByteSize + typed.utf8ByteSize
  lead : lead = "" ∨ ∃ front, lead = front ++ "\\"
  segment : '\\' ∉ (typed ++ rest).toList

theorem WrittenAround.afterLast {source lead typed rest : String} {range : Range}
    {offset : UInt32} (h : WrittenAround source range offset lead typed rest) :
    Text.afterLast '\\' (lead ++ typed ++ rest) = typed ++ rest := by
  rw [String.append_assoc]
  rcases h.lead with rfl | ⟨front, rfl⟩
  · rw [String.empty_append, Text.afterLast_of_not_mem h.segment]
  · rw [Text.afterLast_append_separator, Text.afterLast_of_not_mem h.segment]

/-- After any run, a cursor in the last segment of a name of a class, a function or a constant. The
name resolves to one that ends in this segment, unless nothing is named, or another spelling of a
built-in type, an alias or a word for the class around is written. Where it does, everything that is
listed has a word that begins with what was typed of the segment. -/
theorem completes_typed {ops : List Operation} (hops : ∀ op ∈ ops, op.Valid)
    (hnames : ∀ op ∈ ops, op.NamesFit) {o : OpenDocuments} (ho : o.Valid) (uri source : String)
    {tree : SyntaxTree} (hcreates : tree.all (fun node => decide node.CreatesNamed) = true) :
    ∃ s, Store.volatile.runAll ops = .ok s ∧
      ∀ r ∈ (Extraction.ofTree uri source tree).references, r.kind ∈ Extract.namedKinds →
        ∃ range t, r.location = .of uri range ∧ r.types = .single t ∧
          ∀ offset lead typed rest, WrittenAround source range offset lead typed rest →
            (t.shortName ≠ "" →
              Text.trimBlank (lead ++ typed ++ rest) = lead ++ typed ++ rest →
              canonicalBuiltin? (typed ++ rest) = none →
              (lead = "" → ¬ tree.Aliased source (typed ++ rest) ∧
                Extract.State.isRelative (Text.lowerAscii (typed ++ rest)) = false) →
              t.shortName = typed ++ rest) ∧
            (t.shortName = typed ++ rest → NulFree typed → ∀ ctx limit,
              ∃ found, (o.source s.rows).completion ctx r offset limit = .ok found ∧
                ∀ x ∈ found, ∃ word ∈ Words.indexed x.completionWord,
                  Text.startsWith (Text.lower typed) word) := by
  obtain ⟨s, hrun, h⟩ := Holds.runAll (s := .volatile) Holds.empty hops
  refine ⟨s, hrun, fun r hr hkind => ?_⟩
  have hnamed : ∀ node, tree.Holds node → node.CreatesNamed := fun node hnode =>
    of_decide_eq_true (hnode.of_all hcreates).1
  obtain ⟨range, t, hlocation, htypes, hends⟩ := Extract.written_ofTree hnamed hr hkind
  refine ⟨range, t, hlocation, htypes, fun offset lead typed rest hwritten =>
    ⟨fun hsome hblank hbuiltin hplain => ?_, fun hshort hnul ctx limit => ?_⟩⟩
  · have hkeeps := hends.resolve_right hsome
    rw [Range.text, hwritten.text] at hkeeps
    refine (hkeeps hblank (hwritten.afterLast.symm ▸ hbuiltin) fun hone => ?_).trans
      hwritten.afterLast
    have hlead : lead = "" := by
      refine hwritten.lead.resolve_right ?_
      rintro ⟨front, hfront⟩
      exact hone (by simp [hfront])
    have hword := hplain hlead
    rw [hlead, String.append_assoc, String.empty_append]
    exact hword
  · have hquery : typedKeyword ((r.types.first?.map TypeName.shortName).getD "") r.range? offset =
        typed := by
      rw [htypes, Reference.range?, hlocation]
      change typedKeyword t.shortName (some range) offset = typed
      rw [hshort]
      exact typedKeyword_of_slice? hwritten.text hwritten.offset
    have htyped : SymbolSource.Typed typed r offset := by
      have hkinds : ∀ kind ∈ Extract.namedKinds,
          kind ≠ .argumentList ∧ kind ≠ .variable ∧ kind.isMember = false := by decide
      obtain ⟨hlist, hvariable, hmember⟩ := hkinds r.kind hkind
      exact ⟨hlist, hvariable, hmember, hquery⟩
    obtain ⟨found, hfound, hmatches⟩ := SymbolSource.completion_matches (fun kind limit =>
      OpenDocuments.search_matches h
        (fun _ _ hv => hnames _ (replace_mem_of_lastVersion hv)) ho kind (by decide) hnul limit)
      htyped ctx limit
    exact ⟨found, hfound, fun x hx => (hmatches x hx).2⟩

theorem completes_typed_box :
    let source := "<?php new \\A\\Box;"
    let tree : SyntaxTree := .node "program" none ⟨0, 17⟩
      [.node "php_tag" none ⟨0, 5⟩ [],
       .node "expression_statement" none ⟨6, 17⟩
        [.node "object_creation_expression" none ⟨6, 16⟩
          [.node "new" none ⟨6, 9⟩ [],
           .node "qualified_name" none ⟨10, 16⟩
            [.node "\\" (some "prefix") ⟨10, 11⟩ [],
             .node "namespace_name" (some "prefix") ⟨11, 12⟩ [.node "name" none ⟨11, 12⟩ []],
             .node "\\" (some "prefix") ⟨12, 13⟩ [],
             .node "name" none ⟨13, 16⟩ []]],
         .node ";" none ⟨16, 17⟩ []]]
    let r : Reference :=
      { kind := .newOperand, types := .single ⟨"A\\Box", true⟩, location := .of "a.php" ⟨10, 16⟩ }
    let ops := [.replace (.ofSymbols "b.php" [plainFunction "b.php" "A\\bob"])]
    let o : OpenDocuments := .opening .empty (.ofSymbols "c.php" [plainFunction "c.php" "box"])
    (∀ op ∈ ops, op.Valid ∧ op.NamesFit) ∧ o.Valid ∧
      tree.all (fun node => decide node.CreatesNamed) = true ∧
      r ∈ (Extraction.ofTree "a.php" source tree).references ∧ r.kind ∈ Extract.namedKinds ∧
      WrittenAround source ⟨10, 16⟩ 15 "\\A\\" "Bo" "x" ∧
      ∃ s, Store.volatile.runAll ops = .ok s ∧ ∀ ctx limit,
        ∃ found, (o.source s.rows).completion ctx r 15 limit = .ok found ∧
          ∀ x ∈ found, ∃ word ∈ Words.indexed x.completionWord,
            Text.startsWith (Text.lower "Bo") word := by
  intro source tree r ops o
  have hops : ∀ op ∈ ops, op.Valid ∧ op.NamesFit := by decide
  have ho : o.Valid :=
    OpenDocuments.Valid.opening ⟨List.forall_mem_nil _, List.forall_mem_nil _⟩ (by decide)
      (by decide)
  have hcreates : tree.all (fun node => decide node.CreatesNamed) = true := by decide
  have hr : r ∈ (Extraction.ofTree "a.php" source tree).references := by decide +kernel
  have hkind : r.kind ∈ Extract.namedKinds := by decide
  have hwritten : WrittenAround source ⟨10, 16⟩ 15 "\\A\\" "Bo" "x" :=
    ⟨by decide +kernel, by decide, .inr ⟨"\\A", by decide⟩, by decide⟩
  obtain ⟨s, hrun, hall⟩ := completes_typed (fun op hop => (hops op hop).1)
    (fun op hop => (hops op hop).2) ho "a.php" source hcreates
  obtain ⟨range, t, hlocation, htypes, hcompletes⟩ := hall r hr hkind
  cases hlocation
  cases htypes
  exact ⟨hops, ho, hcreates, hr, hkind, hwritten, s, hrun,
    (hcompletes 15 _ _ _ hwritten).2 (by decide) (by decide)⟩

/-- What a search for class names reads before it is sorted, with one for each other kind. -/
def classReads (ops : List Operation) (keyword : String) (limit : Nat) :
    Except StoreError (Store × List (List (Option Symbol))) := do
  let s ← Store.volatile.runAll ops
  let reads ← TableKind.topLevel.mapM fun kind =>
    ((KindTables.of kind).words.search "" keyword limit >>= Query.forEach fun e =>
      (KindTables.of kind).declarations.get e.uri e.name).run s.rows
  pure (s, reads)

/-- Behind an alias with one letter, what is listed begins with the first letter of the imported
name. -/
theorem completes_untyped :
    let source := "<?php use Lib\\Queue as Z; class Zeta \x7b\x7d class Quit \x7b\x7d new Z;"
    let tree : SyntaxTree := .node "program" none ⟨0, 60⟩
      [.node "php_tag" none ⟨0, 5⟩ [],
       .node "namespace_use_declaration" none ⟨6, 25⟩
        [.node "use" none ⟨6, 9⟩ [],
         .node "namespace_use_clause" none ⟨10, 24⟩
          [.node "qualified_name" none ⟨10, 19⟩
            [.node "namespace_name" (some "prefix") ⟨10, 13⟩ [.node "name" none ⟨10, 13⟩ []],
             .node "\\" (some "prefix") ⟨13, 14⟩ [],
             .node "name" none ⟨14, 19⟩ []],
           .node "as" none ⟨20, 22⟩ [],
           .node "name" (some "alias") ⟨23, 24⟩ []],
         .node ";" none ⟨24, 25⟩ []],
       .node "class_declaration" none ⟨26, 39⟩
        [.node "class" none ⟨26, 31⟩ [],
         .node "name" (some "name") ⟨32, 36⟩ [],
         .node "declaration_list" (some "body") ⟨37, 39⟩
          [.node "\x7b" none ⟨37, 38⟩ [], .node "\x7d" none ⟨38, 39⟩ []]],
       .node "class_declaration" none ⟨40, 53⟩
        [.node "class" none ⟨40, 45⟩ [],
         .node "name" (some "name") ⟨46, 50⟩ [],
         .node "declaration_list" (some "body") ⟨51, 53⟩
          [.node "\x7b" none ⟨51, 52⟩ [], .node "\x7d" none ⟨52, 53⟩ []]],
       .node "expression_statement" none ⟨54, 60⟩
        [.node "object_creation_expression" none ⟨54, 59⟩
          [.node "new" none ⟨54, 57⟩ [],
           .node "name" none ⟨58, 59⟩ []],
         .node ";" none ⟨59, 60⟩ []]]
    let quit : Symbol := .classLike
      { sort := .class, name := "Quit", location := .of "a.php" ⟨40, 53⟩, modifiers := {},
        parents := [], interfaces := [], traits := [], description? := none }
    let r : Reference :=
      { kind := .newOperand, types := .single ⟨"Lib\\Queue", true⟩,
        location := .of "a.php" ⟨58, 59⟩ }
    let extraction := Extraction.ofTree "a.php" source tree
    let ops := [.replace (.ofSymbols "a.php" extraction.symbols)]
    (∀ op ∈ ops, op.Valid ∧ op.NamesFit) ∧
      tree.all (fun node => decide node.CreatesNamed) = true ∧
      r ∈ extraction.references ∧ WrittenAround source ⟨58, 59⟩ 59 "" "Z" "" ∧
      ∃ s, Store.volatile.runAll ops = .ok s ∧ ∀ ctx,
        (Index.source s.rows).completion ctx r 59 10 = .ok [quit] ∧
          ∀ word ∈ Words.indexed quit.completionWord,
            Text.startsWith (Text.lower "Z") word = false := by
  intro source tree quit r extraction ops
  have hreads : (classReads ops "Q" 10).map Prod.snd = .ok [[some quit], [], []] := by
    decide +kernel
  obtain ⟨⟨s, reads⟩, hreads, hparts⟩ := map_eq_ok hreads
  cases hparts
  obtain ⟨s', hrun, hreads⟩ := bind_eq_ok hreads
  obtain ⟨reads, hreads, hpair⟩ := bind_eq_ok hreads
  cases hpair
  have hsearch {kind : TableKind} (found : List Symbol)
      (h : ((KindTables.of kind).words.search "" "Q" 10 >>= Query.forEach fun e =>
        (KindTables.of kind).declarations.get e.uri e.name).run s.rows = .ok (found.map some)) :
      (Index.source s.rows).search kind "" "Q" 10 = .ok (Symbol.candidates found) := by
    refine (run_candidates s.rows ((KindTables.of kind).words.search "" "Q" 10) fun e =>
      (KindTables.of kind).declarations.get e.uri e.name).trans ?_
    rw [h]
    simp [Except.map]
  have hreads := forall₂_of_mapM_eq_ok hreads
  simp only [List.forall₂_cons, TableKind.topLevel] at hreads
  obtain ⟨hclasses, hfunctions, hconstants, -⟩ := hreads
  have htyped : SymbolSource.Typed "Q" r 59 := ⟨by decide, by decide, by decide, by decide +kernel⟩
  refine ⟨by decide +kernel, by decide, by decide +kernel, ⟨by decide +kernel, by decide, .inl rfl,
    by decide⟩, s, hrun, fun ctx => ⟨?_, by decide +kernel⟩⟩
  have hlisted (l : List Symbol) (hl : l = [quit]) :
      Except.ok ((Symbol.candidates l).take 10) = (.ok [quit] : Except StoreError _) := by
    rw [hl, Symbol.candidates_singleton]
    rfl
  have hnone : Symbol.candidates [] = [] := Symbol.candidates_eq_self .nil .nil
  have hone : Symbol.candidates [quit] = [quit] := Symbol.candidates_singleton
  have hclass := (hsearch [quit] hclasses).trans (congrArg Except.ok hone)
  have hfunction := (hsearch [] hfunctions).trans (congrArg Except.ok hnone)
  have hconstant := (hsearch [] hconstants).trans (congrArg Except.ok hnone)
  rw [SymbolSource.completion_of_typed htyped, SymbolSource.workspaceSymbols,
    SymbolSource.searchTopLevel]
  simp only [TableKind.topLevel, List.mapM_cons, List.mapM_nil, hclass, hfunction, hconstant]
  exact hlisted _ rfl

end PhpIndex
