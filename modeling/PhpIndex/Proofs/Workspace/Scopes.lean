import PhpIndex.Proofs.Extract.Mentions
import PhpIndex.Proofs.Index.Ownership
import PhpIndex.Proofs.Lookup.Context
import PhpIndex.Proofs.Workspace.Overlay
import Mathlib.Data.List.Perm.Basic

/-!
# Scopes around references

A reference tells the range of the innermost function around it. Where no two functions have one
range, the smallest scope around that range is the one of this very function, in whatever order
the scopes stand. So the same scope is found in a document and in what was stored of it, however
long the text is.
Main statements: `Version.Recorded.run_scopesOf`, `scopes_agree`.
-/
namespace PhpIndex

/-! ## The smallest scope -/

theorem Range.eq_of_length_le {outer inner : Range} (hin : outer.encloses inner = true)
    (hle : inner.start ≤ inner.stop) (hlength : outer.length.toNat ≤ inner.length.toNat) :
    outer = inner := by
  obtain ⟨hstart, hstop⟩ := encloses_iff.1 hin
  have houter : outer.start ≤ outer.stop := UInt32.le_trans hstart (UInt32.le_trans hle hstop)
  rw [length_eq houter, length_eq hle] at hlength
  rw [UInt32.le_iff_toNat_le] at hle hstart hstop houter
  obtain ⟨a, b⟩ := outer
  obtain ⟨c, d⟩ := inner
  simp only [Range.mk.injEq, ← UInt32.toNat_inj] at *
  omega

namespace DocumentContext
variable {scopes : List VariableScope} {target : Range}

/-- Around the range of a scope there is none smaller. -/
theorem around_of_mem {s : VariableScope} (hs : s ∈ scopes) (hrange : s.range? = some target)
    (hle : target.start ≤ target.stop)
    (hunique : ∀ t ∈ scopes, t.range? = some target → t = s) :
    around scopes target = some s := by
  have hself : s ∈ scopes.filter fun s => s.range?.any fun range => range.encloses target := by
    rw [List.mem_filter, hrange]
    exact ⟨hs, target.encloses_refl⟩
  unfold around
  cases hleast : leastBy (fun s : VariableScope => ((s.range?.map Range.length).getD 0).toNat)
      (scopes.filter fun s => s.range?.any fun range => range.encloses target) with
  | none =>
    rw [leastBy_eq_none.1 hleast] at hself
    exact absurd hself List.not_mem_nil
  | some t =>
    obtain ⟨ht, hencloses⟩ := List.mem_filter.1 (mem_of_leastBy hleast)
    obtain ⟨range, htrange, hin⟩ := (Option.any_eq_true _ _).1 hencloses
    have hlength := le_of_leastBy hleast hself
    rw [hrange, htrange] at hlength
    obtain rfl := Range.eq_of_length_le hin hle hlength
    rw [hunique t ht htrange]

theorem around_of_forall (h : ∀ s ∈ scopes, ∀ range ∈ s.range?, range.encloses target = false) :
    around scopes target = none := by
  rw [around, leastBy_eq_none, List.filter_eq_nil_iff]
  intro s hs hencloses
  obtain ⟨range, hrange, hin⟩ := (Option.any_eq_true _ _).1 hencloses
  rw [h s hs range hrange] at hin
  cases hin

end DocumentContext

/-! ## Scopes that are read back -/

namespace Version.Recorded
variable {v : Version} {rows : Rows} (h : v.Recorded rows)
include h

/-- The row of a scope with its number. -/
def rowOf (uri : String) (e : VariableScope × Nat) : Row :=
  (IndexPart.scopes.table.key (RangeIndex.key uri (e.1.range?.getD default) (.ofNat e.2)),
    toRecord e.1)

omit h in
theorem enters_scopes (hranges : ∀ s ∈ v.scopes, s.range?.isSome) (k value : Bytes) :
    v.Enters .scopes k value ↔
      ∃ e ∈ v.scopes.zipIdx, (IndexPart.scopes.table.key k, value) = rowOf v.uri e := by
  simp only [List.mem_zipIdx_iff_getElem?]
  constructor
  · rintro ⟨i, range, s, hs, hrange, rfl, rfl⟩
    refine ⟨(s, i), hs, ?_⟩
    rw [rowOf, hrange]
    rfl
  · rintro ⟨⟨s, i⟩, hs, heq⟩
    obtain ⟨range, hrange⟩ := Option.isSome_iff_exists.1 (hranges s (List.mem_of_getElem? hs))
    rw [rowOf, hrange] at heq
    obtain ⟨hkey, rfl⟩ := Prod.mk.inj heq
    exact ⟨i, range, s, hs, hrange, (IndexPart.key_inj hkey).2, rfl⟩

omit h in
/-- The number of a scope is in its key. -/
theorem rowOf_inj (hfew : v.scopes.length ≤ 0x80000000) {e e' : VariableScope × Nat}
    (he : e ∈ v.scopes.zipIdx) (he' : e' ∈ v.scopes.zipIdx)
    (hkey : (rowOf v.uri e).1 = (rowOf v.uri e').1) : e = e' := by
  have hget {e : VariableScope × Nat} (he : e ∈ v.scopes.zipIdx) :
      v.scopes[e.2]? = some e.1 ∧ e.2 < 0x80000000 := by
    have hget := List.mem_zipIdx_iff_getElem?.1 he
    obtain ⟨hlt, -⟩ := List.getElem?_eq_some_iff.1 hget
    exact ⟨hget, by omega⟩
  obtain ⟨hs, hlt⟩ := hget he
  obtain ⟨hs', hlt'⟩ := hget he'
  have hnumber := RangeIndex.number_eq hlt hlt' (IndexPart.key_inj hkey).2
  rw [hnumber, hs'] at hs
  exact Prod.ext (Option.some.inj hs).symm hnumber

/-- The rows of the scopes, in any order. -/
theorem perm_scan (hranges : ∀ s ∈ v.scopes, s.range?.isSome)
    (hfew : v.scopes.length ≤ 0x80000000) :
    (rows.scan (IndexPart.scopes.table.key (Key.ofText v.uri))).Perm
      (v.scopes.zipIdx.map (rowOf v.uri)) := by
  refine (List.perm_ext_iff_of_nodup ?scanned ?entered).2 fun row => ?_
  case scanned =>
    rw [Rows.scan_eq_filter]
    exact OrderedMap.nodup_of_ascending (rows.ascending.filter _)
  case entered =>
    refine List.Nodup.map_on (fun e he e' he' heq => ?_) ?_
    · exact rowOf_inj hfew he he' (congrArg Prod.fst heq)
    · refine (RangeIndex.pairwise_zipIdx v.scopes).imp fun {e e'} hlt heq => ?_
      rw [heq] at hlt
      exact Nat.lt_irrefl _ hlt
  obtain ⟨key, value⟩ := row
  rw [IndexPart.mem_scan, List.mem_map]
  constructor
  · rintro ⟨k, hk, rfl, hget⟩
    rw [h .scopes k trivial hk] at hget
    obtain ⟨e, he, heq⟩ := (enters_scopes hranges k value).1 (enters_of_get?_rows hget)
    exact ⟨e, he, heq.symm⟩
  · rintro ⟨e, he, heq⟩
    obtain ⟨rfl, rfl⟩ := Prod.mk.inj heq
    have hbegins := IndexPart.ofText_prefix_key v.uri (e.1.range?.getD default) (.ofNat e.2)
    refine ⟨_, hbegins, rfl, ?_⟩
    rw [h .scopes _ trivial hbegins]
    refine (get?_rows_iff fun value hvalue => ?_).2
      ((enters_scopes hranges _ _).2 ⟨e, he, rfl⟩)
    obtain ⟨e', he', heq⟩ := (enters_scopes hranges _ value).1 hvalue
    obtain ⟨hkey, rfl⟩ := Prod.mk.inj heq
    rw [rowOf_inj hfew he he' hkey]

/-- The scopes of a document are read back in some order. -/
theorem run_scopesOf (hranges : ∀ s ∈ v.scopes, s.range?.isSome)
    (hfew : v.scopes.length ≤ 0x80000000) (hfits : ∀ s ∈ v.scopes, s.Fits) :
    ∃ stored, (Index.scopesOf v.uri).run rows = .ok stored ∧
      stored.Perm (v.scopes.map VariableScope.normal) := by
  have hperm := h.perm_scan hranges hfew
  have hread : List.Forall₂ (fun row s => ofRecord row.2 = .ok s)
      (v.scopes.zipIdx.map (rowOf v.uri)) (v.scopes.map VariableScope.normal) := by
    have hscopes := List.zipIdx_map_fst 0 v.scopes
    rw [← congrArg (List.map VariableScope.normal) hscopes, List.map_map,
      List.forall₂_map_left_iff, List.forall₂_map_right_iff, List.forall₂_same]
    intro e he
    obtain ⟨hlt, heq⟩ := List.mem_zipIdx' he
    exact ofRecord_variableScope (hfits e.1 (heq ▸ List.getElem_mem hlt))
  obtain ⟨stored, hstored, hordered⟩ := List.perm_comp_forall₂ (h.perm_scan hranges hfew) hread
  refine ⟨stored, ?_, hordered⟩
  refine (Query.run_bind_eq_ok rows (Query.run_scan rows IndexPart.scopes.table _)).trans ?_
  rw [List.mapM_map, Function.comp_def, mapM_of_forall₂ hstored]
  rfl

end Version.Recorded

/-! ## Scopes of functions -/

theorem VariableScope.keys_normal (s : VariableScope) : s.normal.types.keys = s.types.keys :=
  List.map_map

namespace Document

/-- Whether the scope is the one of the function, or that of the document if there is none. -/
def IsScopeOf (d : Document) : Option SyntaxTree → VariableScope → Prop
  | some n, s => d.scopes.filter (fun t => t.location = .of d.uri n.range) = [s]
  | none, s => s = d.globals

theorem IsScopeOf.unique {d : Document} {n? : Option SyntaxTree} {s s' : VariableScope}
    (h : d.IsScopeOf n? s) (h' : d.IsScopeOf n? s') : s = s' := by
  cases n? with
  | none => exact Eq.trans h h'.symm
  | some n => exact (List.cons.inj (Eq.trans h.symm h')).1

variable {uri text : String} {modified : Int64} {tree : SyntaxTree}

/-- No two scopes have one location. -/
theorem nodup_scopes (hnested : tree.nested = true)
    (hapart : tree.functions.Pairwise fun f g => f.range ≠ g.range) :
    ((ofTree uri text modified tree).scopes.map VariableScope.location).Nodup := by
  refine (scopes_sublist uri text modified hnested).nodup (List.pairwise_map.2 ?_)
  refine hapart.imp fun {f g} hne heq => hne ?_
  exact Option.some.inj (congrArg Location.range? heq)

theorem location_scope (hnested : tree.nested = true) {s : VariableScope}
    (hs : s ∈ (ofTree uri text modified tree).scopes) :
    ∃ n ∈ tree.functions, s.location = .of uri n.range := by
  obtain ⟨n, hn, hlocation⟩ := List.mem_map.1
    ((scopes_sublist uri text modified hnested).subset (List.mem_map_of_mem hs))
  exact ⟨n, hn, hlocation.symm⟩

theorem start_le_stop_scope (hnested : tree.nested = true) {s : VariableScope}
    (hs : s ∈ (ofTree uri text modified tree).scopes) {range : Range}
    (hlocation : s.location = .of uri range) : range.start ≤ range.stop := by
  obtain ⟨-, -, hgrows⟩ := Extract.reads_walk tree hnested tree.range.within_size ⟨none, none⟩
    (List.forall_mem_nil _) _ (Extract.State.sound_start uri text UInt32.size)
  obtain ⟨closed, hclosed, hfinishes⟩ := hgrows.finished
  have hscopes : (ofTree uri text modified tree).scopes = closed := hclosed
  obtain ⟨r, hr, hle, -⟩ := hfinishes.located s (hscopes ▸ hs)
  obtain rfl := Option.some.inj (congrArg Location.range? (hlocation.symm.trans hr))
  exact hle

/-- The scopes where a function is are one scope. -/
theorem isScopeOf_of_mem (hnested : tree.nested = true)
    (hapart : tree.functions.Pairwise fun f g => f.range ≠ g.range) {n : SyntaxTree}
    {s : VariableScope} (hs : s ∈ (ofTree uri text modified tree).scopes)
    (hlocation : s.location = .of uri n.range) :
    (ofTree uri text modified tree).IsScopeOf (some n) s := by
  refine Eq.trans (List.filter_congr fun t ht => ?_) ((List.filter_eq s).trans ?_)
  · exact decide_eq_decide.2 ⟨fun htlocation => List.inj_on_of_nodup_map
      (nodup_scopes hnested hapart) ht hs (htlocation.trans hlocation.symm), fun h => h ▸ hlocation⟩
  · rw [List.count_eq_one_of_mem (nodup_scopes hnested hapart).of_map hs]
    rfl

/-- Whether the scopes around references are found in the rows as they are in the document, with
the same variables, up to what a record keeps of the names of types. -/
def ReadsScopes (d : Document) (rows : Rows) : Prop :=
  ∃ record scopes, (Index.document d.uri).run rows = .ok (some record) ∧
    (Index.scopesOf d.uri).run rows = .ok scopes ∧
    ∀ r ∈ d.references, r.scopeRange?.isSome → ∀ r' ∈ [r, r.normal],
      let found := (DocumentContext.ofRecord record scopes).scopeFor r'
      found = (d.context.scopeFor r).normal ∧ found.types.keys = (d.context.scopeFor r).types.keys

section
variable (hnested : tree.nested = true)
  (hapart : tree.functions.Pairwise fun f g => f.range ≠ g.range)
  (hspan : ∀ f ∈ tree.functions, f.range.encloses (extent text) = false)
include hnested hapart hspan

/-- All contexts that hold the scopes of the document, each where it was, find the scope of the
function around a reference that tells one. -/
theorem scopeFor_mention {m : Mention} (hm : m ∈ mentions uri text tree)
    {f : VariableScope → VariableScope}
    (hf : ∀ s ∈ (ofTree uri text modified tree).scopes, (f s).location = s.location)
    {ctx : DocumentContext}
    (hscopes : ctx.scopes.Perm ((ofTree uri text modified tree).scopes.map f))
    (hglobals : ctx.globals = f (ofTree uri text modified tree).globals) {r : Reference}
    (hr : r.scopeRange? = m.reference.scopeRange?) (htells : m.reference.scopeRange?.isSome) :
    ∃ s, (ofTree uri text modified tree).IsScopeOf m.function? s ∧ ctx.scopeFor r = f s := by
  obtain ⟨target, htarget⟩ := Option.isSome_iff_exists.1 htells
  have hrange := scopeRange?_mention uri text hnested hm htarget
  have hfor : ctx.scopeFor r = (DocumentContext.around ctx.scopes target).getD ctx.globals := by
    rw [DocumentContext.scopeFor_eq, hr, htarget]
    rfl
  -- A scope of the context and where it is.
  have hmem {t : VariableScope} (ht : t ∈ ctx.scopes) :
      ∃ s ∈ (ofTree uri text modified tree).scopes, f s = t ∧ t.location = s.location := by
    obtain ⟨s, hs, rfl⟩ := List.mem_map.1 (hscopes.mem_iff.1 ht)
    exact ⟨s, hs, rfl, hf s hs⟩
  cases hfunction : m.function? with
  | none =>
    rw [hfunction] at hrange
    refine ⟨_, rfl, ?_⟩
    rw [hfor, DocumentContext.around_of_forall fun t ht range htrange => ?_]
    · exact hglobals
    · obtain ⟨s, hs, -, hlocation⟩ := hmem ht
      obtain ⟨n, hn, hsn⟩ := location_scope hnested hs
      rw [VariableScope.range?, hlocation, hsn] at htrange
      obtain rfl := Option.some.inj htrange
      exact hrange ▸ hspan n hn
  | some n =>
    rw [hfunction] at hrange
    obtain ⟨s, hs, hlocation⟩ := exists_scope_of_mention uri text modified hnested hm hfunction
    have hle := start_le_stop_scope hnested hs hlocation
    refine ⟨s, isScopeOf_of_mem hnested hapart hs hlocation, ?_⟩
    rw [hfor, DocumentContext.around_of_mem (s := f s)]
    · rfl
    · exact hscopes.mem_iff.2 (List.mem_map_of_mem hs)
    · rw [VariableScope.range?, hf s hs, hlocation, hrange]
      rfl
    · rw [hrange]
      exact hle
    · intro t ht htrange
      obtain ⟨s', hs', rfl, hlocation'⟩ := hmem ht
      obtain ⟨n', -, hsn⟩ := location_scope hnested hs'
      rw [VariableScope.range?, hlocation', hsn, hrange] at htrange
      have hsame := hsn.trans (congrArg (Location.of uri) (Option.some.inj htrange))
      rw [List.inj_on_of_nodup_map (nodup_scopes hnested hapart) hs' hs
        (hsame.trans hlocation.symm)]

/-- A reference that tells a scope finds the one of the innermost function around it. -/
theorem isScopeOf_scopeFor {m : Mention} (hm : m ∈ mentions uri text tree)
    (htells : m.reference.scopeRange?.isSome) :
    (ofTree uri text modified tree).IsScopeOf m.function?
      ((ofTree uri text modified tree).context.scopeFor m.reference) := by
  have hscopes : (ofTree uri text modified tree).context.scopes.Perm
      ((ofTree uri text modified tree).scopes.map id) := List.map_id _ ▸ .refl _
  obtain ⟨s, hs, hfound⟩ := scopeFor_mention hnested hapart hspan hm (fun _ _ => rfl) hscopes rfl
    rfl htells
  rw [hfound]
  exact hs

/-- Wherever the version of a document is recorded, its scopes are read as they are. -/
theorem readsScopes_of_recorded {indexedAt : Int64} {rows : Rows}
    (h : ((ofTree uri text modified tree).version indexedAt).Recorded rows)
    (hrecord : ((ofTree uri text modified tree).version indexedAt).record.Fits)
    (hfits : ∀ s ∈ (ofTree uri text modified tree).scopes, s.Fits)
    (hfew : (ofTree uri text modified tree).scopes.length ≤ 0x80000000) :
    (ofTree uri text modified tree).ReadsScopes rows := by
  have hlocated : ∀ s ∈ (ofTree uri text modified tree).scopes,
      s.normal.location = s.location ∧ s.range?.isSome := by
    intro s hs
    obtain ⟨n, -, hlocation⟩ := location_scope hnested hs
    rw [VariableScope.normal, VariableScope.range?, hlocation]
    exact ⟨rfl, rfl⟩
  obtain ⟨stored, hstored, hperm⟩ :=
    h.run_scopesOf (fun s hs => (hlocated s hs).2) hfew hfits
  let record := ((ofTree uri text modified tree).version indexedAt).record.normal
  have hscopes : (DocumentContext.ofRecord record stored).scopes.Perm
      ((ofTree uri text modified tree).scopes.map VariableScope.normal) := hperm
  refine ⟨record, stored, h.run_document hrecord, hstored, fun r hr htells r' hr' => ?_⟩
  rw [references_eq_mentions uri text modified hnested] at hr
  obtain ⟨m, hm, rfl⟩ := List.mem_map.1 hr
  -- A record keeps where the scope of a reference is.
  have hsame : r'.scopeRange? = m.reference.scopeRange? := by
    simp only [List.mem_cons, List.not_mem_nil, or_false] at hr'
    rcases hr' with rfl | rfl <;> rfl
  obtain ⟨s, hs, hfound⟩ := scopeFor_mention hnested hapart hspan hm
    (fun s hs => (hlocated s hs).1) hscopes rfl hsame htells
  obtain rfl := hs.unique (isScopeOf_scopeFor hnested hapart hspan hm htells)
  exact ⟨hfound, hfound ▸ VariableScope.keys_normal _⟩

end
end Document

/-- For every tree in which no two functions have one range and none has that of the whole text:
a reference that tells a scope finds the one of the innermost function around it, in the document
and in whatever has taken it up since. -/
theorem scopes_agree (uri text : String) (modified indexedAt : Int64) {tree : SyntaxTree}
    (hnested : tree.nested = true)
    (hapart : tree.functions.Pairwise fun f g => f.range ≠ g.range)
    (hspan : ∀ f ∈ tree.functions, f.range.encloses (Document.extent text) = false) :
    let d := Document.ofTree uri text modified tree
    let v := d.version indexedAt
    (d.references = (Document.mentions uri text tree).map Mention.reference ∧
      ∀ m ∈ Document.mentions uri text tree, tree.IsPath m.path ∧
        (m.reference.scopeRange?.isSome →
          d.IsScopeOf m.function? (d.context.scopeFor m.reference))) ∧
    (v.record.Fits → (∀ s ∈ v.scopes, s.Fits) → v.scopes.length ≤ 0x80000000 →
      ∀ (s s' : Store) (after : List Operation), s.runAll (.replace v :: after) = .ok s' →
        (∀ op ∈ after, op.uri ≠ uri) → d.ReadsScopes s'.rows) ∧
    ∀ ops s, (∀ op ∈ ops, op.Fits) → Store.volatile.runAll ops = .ok s →
      ∃ s', (Operation.replace v).run s = .ok s' := by
  intro d v
  refine ⟨⟨Document.references_eq_mentions uri text modified hnested, fun m hm => ?given⟩, ?reads,
    fun ops s hops hrun =>
      (Rows.Legible.empty.runAll (s := .volatile) hops hrun).exists_run_replace v⟩
  case given =>
    exact ⟨Document.isPath_mentions uri text m hm, fun htells =>
      Document.isScopeOf_scopeFor hnested hapart hspan hm htells⟩
  case reads =>
    intro hrecord hscopes hfew s s' after hrun hothers
    have hrecorded : v.Recorded s'.rows := Version.recorded_of_runAll hrun hothers
    exact Document.readsScopes_of_recorded hnested hapart hspan hrecorded hrecord hscopes hfew

/-- The text of `nestedFunctions`. -/
def nestedText : String := "<?php function f($a){fn()=>$a;$a;}$b;"

/-- A use of a variable whose name has one letter. -/
def variableAt (field? : Option String) (start : UInt32) : SyntaxTree :=
  .node "variable_name" field? ⟨start, start + 2⟩
    [.node "$" none ⟨start, start + 1⟩ [], .node "name" none ⟨start + 1, start + 2⟩ []]

/-- A function in another one, a use of a variable in each of them, and one outside. -/
def nestedFunctions : SyntaxTree :=
  let inner := .node "arrow_function" none ⟨21, 29⟩
    [.node "fn" none ⟨21, 23⟩ [], .node "=>" none ⟨25, 27⟩ [], variableAt (some "body") 27]
  let outer := .node "function_definition" none ⟨6, 34⟩
    [.node "name" (some "name") ⟨15, 16⟩ [],
      .node "formal_parameters" (some "parameters") ⟨16, 20⟩
        [.node "simple_parameter" none ⟨17, 19⟩ [variableAt (some "name") 17]],
      .node "compound_statement" (some "body") ⟨20, 34⟩
        [.node "expression_statement" none ⟨21, 30⟩ [inner],
          .node "expression_statement" none ⟨30, 33⟩ [variableAt none 30]]]
  .node "program" none ⟨0, 37⟩
    [outer, .node "expression_statement" none ⟨34, 37⟩ [variableAt none 34]]

theorem scopes_agree_nested :
    let d := Document.ofTree "a.php" nestedText 0 nestedFunctions
    (Document.mentions "a.php" nestedText nestedFunctions).map
        (fun m => (m.reference.scopeRange?, m.function?.map SyntaxTree.kind)) =
      [(some ⟨21, 29⟩, some "arrow_function"), (some ⟨6, 34⟩, some "function_definition"),
        (some ⟨0, 37⟩, none)] ∧
    ∃ s, Store.volatile.runAll [.replace (d.version 0)] = .ok s ∧ d.ReadsScopes s.rows := by
  intro d
  have hnested : nestedFunctions.nested = true := by decide
  obtain ⟨-, hreads, htakes⟩ := scopes_agree "a.php" nestedText 0 0 hnested (by decide) (by decide)
  refine ⟨by decide +kernel, ?_⟩
  obtain ⟨s, hrun⟩ := htakes [] .volatile (List.forall_mem_nil _) rfl
  have hrun' : Store.volatile.runAll [.replace (d.version 0)] = .ok s := by
    rw [Store.runAll, List.foldlM_cons, hrun]
    rfl
  exact ⟨s, hrun', hreads (by decide +kernel) (by decide +kernel) (by decide +kernel) .volatile s []
    hrun' (List.forall_mem_nil _)⟩

end PhpIndex
