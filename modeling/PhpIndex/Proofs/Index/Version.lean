import PhpIndex.Proofs.Index.Layout
import PhpIndex.Proofs.Index.Words
import PhpIndex.Proofs.Record.RoundTrip
import PhpIndex.Proofs.Store.Rows
import Mathlib.Data.List.Pairwise

/-!
# Versions of a document

What is stored for a document at a time, and the rows that it takes in an empty store. All rows
of a version belong to its document, and a declaration row holds the last symbol of its name.
Main statements: `Version.mem_puts`, `get?_rows_declaration`.
-/
namespace PhpIndex

namespace Symbol

/-- Whether the names of the symbol have no zero characters. -/
def Plain (s : Symbol) : Prop := NulFree s.name ∧ ∀ owner ∈ s.scope?, NulFree owner

instance : DecidablePred Plain := fun _ => inferInstanceAs (Decidable (_ ∧ _))

theorem Plain.scope {s : Symbol} (h : s.Plain) : NulFree (s.scope?.getD "") := by
  cases hscope : s.scope? with
  | none => exact List.not_mem_nil
  | some owner => exact h.2 owner hscope

theorem Plain.completionWord {s : Symbol} (h : s.Plain) : NulFree s.completionWord := by
  have hsubset : (Text.afterLast '\\' s.name).toList ⊆ s.name.toList := by
    intro c hc
    rw [Text.afterLast, String.toList_ofList, List.mem_reverse] at hc
    exact List.mem_reverse.1 ((List.takeWhile_sublist _).subset hc)
  unfold Symbol.completionWord
  split
  · exact h.1
  · exact fun hzero => h.1 (hsubset hzero)

/-- Whether the keys made of the names of the symbol can be read apart. -/
def Separable (s : Symbol) : Prop :=
  NulFree s.name ∧ ∀ owner ∈ s.scope?, NulFree owner ∧ AtFree owner ∧ AtFree s.name

instance : DecidablePred Separable := fun _ => inferInstanceAs (Decidable (_ ∧ _))

theorem Separable.plain {s : Symbol} (h : s.Separable) : s.Plain :=
  ⟨h.1, fun owner howner => (h.2 owner howner).1⟩

theorem Separable.indexName {s : Symbol} (h : s.Separable) : NulFree s.indexName := by
  unfold Symbol.indexName
  split
  next owner howner =>
    exact IndexPart.nulFree_append (IndexPart.nulFree_append (h.2 owner howner).1 (by decide)) h.1
  next => exact h.1

theorem ofText_memberKey (owner member : String) :
    Bytes.ofText (memberKey owner member) = Bytes.ofText owner ++ 64 :: Bytes.ofText member := by
  rw [memberKey, Bytes.ofText_append, Bytes.ofText_append, List.append_assoc]
  rfl

theorem memberKey_inj {owner owner' member member' : String} (h : AtFree owner)
    (h' : AtFree owner') (heq : memberKey owner member = memberKey owner' member') :
    owner = owner' ∧ member = member' := by
  have hbytes := congrArg Bytes.ofText heq
  rw [ofText_memberKey, ofText_memberKey] at hbytes
  obtain ⟨ho, hm⟩ := cut_separator_eq (Bytes.at_not_mem h) (Bytes.at_not_mem h') hbytes
  exact ⟨Bytes.ofText_inj ho, Bytes.ofText_inj hm⟩

theorem isSome_scope? {s : Symbol} {kind : TableKind} (h : s.table? = some kind) :
    s.scope?.isSome = kind.isMember := by
  cases s <;> simp only [table?, Option.some.injEq, reduceCtorEq] at h <;> subst h <;> rfl

/-- In one table the stored name tells the class and the name. -/
theorem Separable.indexName_inj {s t : Symbol} {kind : TableKind} (hs : s.Separable)
    (ht : t.Separable) (hskind : s.table? = some kind) (htkind : t.table? = some kind)
    (h : s.indexName = t.indexName) : s.scope? = t.scope? ∧ s.name = t.name := by
  have hsome := (isSome_scope? hskind).trans (isSome_scope? htkind).symm
  unfold Symbol.indexName at h
  cases hsscope : s.scope? with
  | none =>
    cases htscope : t.scope? with
    | none =>
      rw [hsscope, htscope] at h
      exact ⟨rfl, h⟩
    | some owner' => simp [hsscope, htscope] at hsome
  | some owner =>
    cases htscope : t.scope? with
    | none => simp [hsscope, htscope] at hsome
    | some owner' =>
      rw [hsscope, htscope] at h
      obtain ⟨rfl, hname⟩ := memberKey_inj (hs.2 owner hsscope).2.1 (ht.2 owner' htscope).2.1 h
      exact ⟨rfl, hname⟩

theorem completionWord_eq {s t : Symbol} (hscope : s.scope? = t.scope?) (hname : s.name = t.name) :
    s.completionWord = t.completionWord := by
  unfold Symbol.completionWord Symbol.shortName
  rw [hscope, hname]

end Symbol

/-- All that is stored of a document at once. -/
structure Version where
  record : DocumentRecord
  symbols : List Symbol := []
  references : List Reference := []
  scopes : List VariableScope := []
  deriving DecidableEq

/-- A document with these symbols and nothing else. -/
def Version.ofSymbols (uri : String) (symbols : List Symbol) : Version :=
  ⟨⟨uri, 0, "", 0, .empty, .empty .empty⟩, symbols, [], []⟩

namespace Version

def uri (v : Version) : String := v.record.uri

/-- The changes that enter the version. -/
def puts (v : Version) : Batch :=
  Index.symbolChanges v.uri v.symbols ++ Index.referenceChanges v.uri v.references ++
    Index.scopeChanges v.uri v.scopes ++ [documentTable.put v.record]

/-- The rows that the version takes in an empty store. -/
def rows (v : Version) : Rows := Rows.apply .empty v.puts

/-- The references that are stored, with their ranges. -/
def located (v : Version) : List (Range × Reference) :=
  v.references.filterMap fun r =>
    if r.location.isEmpty then none else r.range?.map (fun range => (range, r))

/-- The row of the version under a key of a table. -/
def Enters (v : Version) : IndexPart → Bytes → Bytes → Prop
  | .declarations kind, k, value => ∃ s ∈ v.symbols, s.table? = some kind ∧
      k = joinKey [v.uri, s.indexName] ∧ value = toRecord s
  | .names kind, k, value => ∃ s ∈ v.symbols, s.table? = some kind ∧
      k = joinKey [s.indexName, v.uri] ∧ value = Bytes.ofText v.uri
  | .words kind, k, value => ∃ s ∈ v.symbols, s.table? = some kind ∧
      ∃ word ∈ Words.indexed s.completionWord,
        k = CompletionIndex.key (s.scope?.getD "") word v.uri s.indexName ∧
          value = toRecord (⟨v.uri, s.indexName⟩ : CompletionEntry)
  | .references, k, value => ∃ (i : Nat) (range : Range) (r : Reference),
      v.located[i]? = some (range, r) ∧ k = RangeIndex.key v.uri range (.ofNat i) ∧
        value = toRecord r
  | .scopes, k, value => ∃ (i : Nat) (range : Range) (s : VariableScope),
      v.scopes[i]? = some s ∧ s.range? = some range ∧
        k = RangeIndex.key v.uri range (.ofNat i) ∧ value = toRecord s
  | .documents, k, value => k = Bytes.ofText v.uri ∧ value = toRecord v.record

/-- What the rows of a version can be kept apart and read back by. -/
structure Valid (v : Version) : Prop where
  uri : NulFree v.uri
  record : v.record.Fits
  separable : ∀ s ∈ v.symbols, s.Separable
  fits : ∀ s ∈ v.symbols, s.Fits

instance : DecidablePred Valid := fun v =>
  decidable_of_iff (NulFree v.uri ∧ v.record.Fits ∧ (∀ s ∈ v.symbols, s.Separable) ∧
      ∀ s ∈ v.symbols, s.Fits)
    ⟨fun ⟨a, b, c, d⟩ => ⟨a, b, c, d⟩, fun ⟨a, b, c, d⟩ => ⟨a, b, c, d⟩⟩

/-- The changes that enter the version are its rows. -/
theorem mem_puts {v : Version} {c : Change} :
    c ∈ v.puts ↔ ∃ (p : IndexPart) (k value : Bytes),
      c = .put (p.table.key k) value ∧ v.Enters p k value := by
  simp only [puts, List.mem_append, List.mem_singleton]
  refine ⟨?_, ?_⟩
  · rintro (((h | h) | h) | rfl)
    · obtain ⟨s, hs, h⟩ := List.mem_flatMap.1 h
      split at h
      next kind hkind =>
        simp only [KindTables.put, List.mem_append, List.mem_cons, List.not_mem_nil,
          or_false] at h
        rcases h with (rfl | rfl) | h
        · exact ⟨.declarations kind, _, _, rfl, s, hs, hkind, rfl, rfl⟩
        · exact ⟨.names kind, _, _, rfl, s, hs, hkind, rfl, rfl⟩
        · obtain ⟨word, hword, rfl⟩ := List.mem_map.1 h
          exact ⟨.words kind, _, _, rfl, s, hs, hkind, word, hword, rfl, rfl⟩
      next => exact absurd h List.not_mem_nil
    · obtain ⟨i, hi, rfl⟩ := List.mem_mapIdx.1 h
      exact ⟨.references, _, _, rfl, i, _, _, List.getElem?_eq_getElem hi, rfl, rfl⟩
    · obtain ⟨⟨i, s⟩, his, hs⟩ := List.mem_filterMap.1 h
      obtain ⟨j, hj, hjs⟩ := List.mem_mapIdx.1 his
      obtain ⟨rfl, rfl⟩ := Prod.mk.inj hjs
      obtain ⟨range, hrange, rfl⟩ := Option.map_eq_some_iff.1 hs
      exact ⟨.scopes, _, _, rfl, j, range, _, List.getElem?_eq_getElem hj, hrange, rfl, rfl⟩
    · exact ⟨.documents, _, _, rfl, rfl, rfl⟩
  · rintro ⟨p, k, value, rfl, h⟩
    cases p with
    | declarations kind =>
      obtain ⟨s, hs, hkind, rfl, rfl⟩ := h
      refine .inl (.inl (.inl (List.mem_flatMap.2 ⟨s, hs, ?_⟩)))
      simp only [hkind]
      exact List.mem_append_left _ List.mem_cons_self
    | names kind =>
      obtain ⟨s, hs, hkind, rfl, rfl⟩ := h
      refine .inl (.inl (.inl (List.mem_flatMap.2 ⟨s, hs, ?_⟩)))
      simp only [hkind]
      exact List.mem_append_left _ (List.mem_cons_of_mem _ List.mem_cons_self)
    | words kind =>
      obtain ⟨s, hs, hkind, word, hword, rfl, rfl⟩ := h
      refine .inl (.inl (.inl (List.mem_flatMap.2 ⟨s, hs, ?_⟩)))
      simp only [hkind]
      exact List.mem_append_right _ (List.mem_map.2 ⟨word, hword, rfl⟩)
    | references =>
      obtain ⟨i, range, r, hi, rfl, rfl⟩ := h
      obtain ⟨hlt, hget⟩ := List.getElem?_eq_some_iff.1 hi
      refine .inl (.inl (.inr (List.mem_mapIdx.2 ⟨i, hlt, ?_⟩)))
      unfold located at hget
      rw [hget]
      rfl
    | scopes =>
      obtain ⟨i, range, s, hi, hrange, rfl, rfl⟩ := h
      obtain ⟨hlt, hget⟩ := List.getElem?_eq_some_iff.1 hi
      refine .inl (.inr (List.mem_filterMap.2 ⟨(i, s), List.mem_mapIdx.2 ⟨i, hlt, ?_⟩, ?_⟩))
      · rw [hget]
      · simp only [hrange, Option.map_some]
        rfl
    | documents =>
      obtain ⟨rfl, rfl⟩ := h
      exact .inr rfl

theorem isPut_of_mem_puts {v : Version} {c : Change} (h : c ∈ v.puts) : c.isPut = true := by
  obtain ⟨p, k, value, rfl, -⟩ := mem_puts.1 h
  rfl

theorem enters_of_get?_rows {v : Version} {p : IndexPart} {k value : Bytes}
    (h : v.rows.get? (p.table.key k) = some value) : v.Enters p k value := by
  rcases Rows.put_mem_of_get?_apply h with h | h
  · obtain ⟨q, j, value', heq, h⟩ := mem_puts.1 h
    obtain ⟨hkey, rfl⟩ := Change.put.inj heq
    obtain ⟨rfl, rfl⟩ := IndexPart.key_inj hkey
    exact h
  · cases h

theorem exists_get?_rows {v : Version} {p : IndexPart} {k value : Bytes} (h : v.Enters p k value) :
    ∃ value', v.rows.get? (p.table.key k) = some value' :=
  Rows.exists_get?_apply (fun _ => isPut_of_mem_puts) (mem_puts.2 ⟨p, k, value, rfl, h⟩)

/-- Where all entries under a key have one value, that value stands under it. -/
theorem get?_rows_iff {v : Version} {p : IndexPart} {k value : Bytes}
    (hvalue : ∀ value', v.Enters p k value' → value' = value) :
    v.rows.get? (p.table.key k) = some value ↔ v.Enters p k value := by
  refine ⟨enters_of_get?_rows, fun h => ?_⟩
  obtain ⟨value', hget⟩ := exists_get?_rows h
  rw [hget, hvalue value' (enters_of_get?_rows hget)]

/-- Whether every symbol has its full location in the document. -/
def Located (v : Version) : Prop :=
  ∀ s ∈ v.symbols, s.location.uri? = some v.uri ∧ s.location.range?.isSome

instance : DecidablePred Located := fun _ => inferInstanceAs (Decidable (∀ _ ∈ _, _))

/-- The location of a symbol is kept as it is, and tells its document. -/
theorem Located.location_normal {v : Version} (h : v.Located) {s : Symbol} (hs : s ∈ v.symbols) :
    s.normal.location = s.location ∧ s.location.uri = v.uri := by
  obtain ⟨huri, hrange⟩ := h s hs
  have hempty : s.location.isEmpty = false := by
    unfold Location.isEmpty
    rw [huri, Option.isNone_eq_false_iff.2 hrange]
    rfl
  refine ⟨?_, ?_⟩
  · rw [Symbol.location_normal, Location.normal, hempty]
    rfl
  · rw [Location.uri, huri]
    rfl

/-- Whether no two symbols of a table are stored under one name. -/
def NamesDiffer (v : Version) : Prop :=
  v.symbols.Pairwise fun s t => s.table?.isSome → s.table? = t.table? → s.indexName ≠ t.indexName

instance : DecidablePred NamesDiffer := fun _ => inferInstanceAs (Decidable (List.Pairwise _ _))

theorem NamesDiffer.eq {v : Version} (h : v.NamesDiffer) {s t : Symbol} (hs : s ∈ v.symbols)
    (ht : t ∈ v.symbols) {kind : TableKind} (hskind : s.table? = some kind)
    (htkind : t.table? = some kind) (hname : s.indexName = t.indexName) : s = t := by
  have hsymm : Std.Symm fun s t : Symbol =>
      s.table?.isSome → s.table? = t.table? → s.indexName ≠ t.indexName :=
    ⟨fun s t hst hsome htable => (hst (htable ▸ hsome) htable.symm).symm⟩
  by_contra hne
  exact List.Pairwise.forall h hs ht hne (by rw [hskind]; rfl) (hskind.trans htkind.symm) hname

/-- Whether the symbol is stored under the name of its kind. -/
def isNamed (kind : TableKind) (name : String) (s : Symbol) : Bool :=
  s.table? = some kind && s.indexName = name

/-- The last symbol of its name in its table, which is the one that is stored. -/
def declared (v : Version) (kind : TableKind) (name : String) : Option Symbol :=
  v.symbols.reverse.find? (isNamed kind name)

theorem not_touches_put {p q : IndexPart} {k j value : Bytes} (h : p ≠ q) :
    ¬ (Change.put (q.table.key j) value).Touches (p.table.key k) :=
  fun heq => h (IndexPart.key_inj heq).1

theorem joinKey_pair_inj {uri name name' : String}
    (h : joinKey [uri, name] = joinKey [uri, name']) : name = name' := by
  rw [joinKey_pair, joinKey_pair] at h
  exact Bytes.ofText_inj ((List.cons_inj_right 0).1 (List.append_cancel_left h))

theorem get?_apply_symbol (rows : Rows) (uri : String) (s : Symbol) (kind : TableKind)
    (name : String) :
    (rows.apply (Index.symbolChanges uri [s])).get?
        ((IndexPart.declarations kind).table.key (joinKey [uri, name])) =
      if isNamed kind name s then some (toRecord s)
      else rows.get? ((IndexPart.declarations kind).table.key (joinKey [uri, name])) := by
  cases htable : s.table? with
  | none => simp [Index.symbolChanges, isNamed, htable, Rows.apply]
  | some kind' =>
    have hchanges : Index.symbolChanges uri [s] =
        .put ((IndexPart.declarations kind').table.key (joinKey [uri, s.indexName])) (toRecord s) ::
          ((KindTables.of kind').put uri s).tail := by
      simp only [Index.symbolChanges, List.flatMap_cons, List.flatMap_nil, List.append_nil, htable]
      rfl
    have hothers : ∀ c ∈ ((KindTables.of kind').put uri s).tail,
        ¬ c.Touches ((IndexPart.declarations kind).table.key (joinKey [uri, name])) := by
      intro c hc
      rcases List.mem_cons.1 hc with rfl | hc
      · exact not_touches_put (q := .names kind') (by simp)
      · obtain ⟨word, -, rfl⟩ := List.mem_map.1 hc
        exact not_touches_put (q := .words kind') (by simp)
    rw [hchanges]
    refine (Rows.get?_apply_of_not_touches hothers _).trans ?_
    rw [Rows.get?_make, Change.effect]
    by_cases hkey : kind' = kind ∧ s.indexName = name
    · obtain ⟨rfl, rfl⟩ := hkey
      simp [isNamed, htable]
    · have hne : (IndexPart.declarations kind).table.key (joinKey [uri, name]) ≠
          (IndexPart.declarations kind').table.key (joinKey [uri, s.indexName]) := fun heq => by
        obtain ⟨hpart, hjoin⟩ := IndexPart.key_inj heq
        exact hkey ⟨(IndexPart.declarations.inj hpart).symm, (joinKey_pair_inj hjoin).symm⟩
      rw [if_neg hne]
      simp only [isNamed, htable, Option.some.injEq, Bool.and_eq_true, decide_eq_true_eq,
        if_neg hkey]

theorem get?_apply_symbols (rows : Rows) (uri : String) (symbols : List Symbol)
    (kind : TableKind) (name : String) :
    (rows.apply (Index.symbolChanges uri symbols)).get?
        ((IndexPart.declarations kind).table.key (joinKey [uri, name])) =
      ((symbols.reverse.find? (isNamed kind name)).map toRecord).or
        (rows.get? ((IndexPart.declarations kind).table.key (joinKey [uri, name]))) := by
  induction symbols generalizing rows with
  | nil => rfl
  | cons s rest ih =>
    have hsplit : Index.symbolChanges uri (s :: rest) =
        Index.symbolChanges uri [s] ++ Index.symbolChanges uri rest := by
      simp [Index.symbolChanges]
    rw [hsplit, Rows.apply_append, ih, get?_apply_symbol, List.reverse_cons, List.find?_append]
    cases rest.reverse.find? (isNamed kind name) with
    | some found => rfl
    | none =>
      by_cases hs : isNamed kind name s
      · simp [hs]
      · simp [hs]

/-- A declaration row holds the last symbol of its name. -/
theorem get?_rows_declaration (v : Version) (kind : TableKind) (name : String) :
    v.rows.get? ((IndexPart.declarations kind).table.key (joinKey [v.uri, name])) =
      (v.declared kind name).map toRecord := by
  have hothers : ∀ c ∈ Index.referenceChanges v.uri v.references ++
      Index.scopeChanges v.uri v.scopes ++ [documentTable.put v.record],
      ¬ c.Touches ((IndexPart.declarations kind).table.key (joinKey [v.uri, name])) := by
    intro c hc
    simp only [List.mem_append, List.mem_singleton] at hc
    rcases hc with (hc | hc) | rfl
    · obtain ⟨i, hi, rfl⟩ := List.mem_mapIdx.1 hc
      exact not_touches_put (q := .references) (by simp)
    · obtain ⟨⟨i, s⟩, -, hs⟩ := List.mem_filterMap.1 hc
      obtain ⟨range, -, rfl⟩ := Option.map_eq_some_iff.1 hs
      exact not_touches_put (q := .scopes) (by simp)
    · exact not_touches_put (q := .documents) (by simp)
  have hsplit : v.puts = Index.symbolChanges v.uri v.symbols ++
      (Index.referenceChanges v.uri v.references ++ Index.scopeChanges v.uri v.scopes ++
        [documentTable.put v.record]) := by
    simp [puts]
  rw [rows, hsplit, Rows.apply_append, Rows.get?_apply_of_not_touches hothers,
    get?_apply_symbols]
  exact Option.or_none

theorem declared_eq_some {v : Version} {kind : TableKind} {name : String} {s : Symbol}
    (h : v.declared kind name = some s) :
    s ∈ v.symbols ∧ s.table? = some kind ∧ s.indexName = name := by
  have hs := List.find?_some h
  simp only [isNamed, Bool.and_eq_true, decide_eq_true_eq] at hs
  exact ⟨List.mem_reverse.1 (List.mem_of_find?_eq_some h), hs.1, hs.2⟩

theorem exists_declared {v : Version} {kind : TableKind} {s : Symbol} (hs : s ∈ v.symbols)
    (hkind : s.table? = some kind) : ∃ t, v.declared kind s.indexName = some t := by
  rw [← Option.isSome_iff_exists, declared, List.find?_isSome]
  exact ⟨s, List.mem_reverse.2 hs, by simp [isNamed, hkind]⟩

/-- All rows of a version belong to its document. -/
theorem hasKey_of_enters {v : Version} (hv : v.Valid) {p : IndexPart} {k value : Bytes}
    (h : v.Enters p k value) : p.HasKey v.uri k := by
  cases p with
  | declarations kind =>
    obtain ⟨s, -, -, rfl, -⟩ := h
    exact ⟨s.indexName, rfl⟩
  | names kind =>
    obtain ⟨s, hs, -, rfl, -⟩ := h
    exact ⟨s.indexName, (hv.separable s hs).indexName, rfl⟩
  | words kind =>
    obtain ⟨s, hs, -, word, hword, rfl, -⟩ := h
    have hsep := hv.separable s hs
    exact ⟨_, word, s.indexName, hsep.plain.scope,
      Words.nulFree_of_mem_indexed hsep.plain.completionWord hword, rfl⟩
  | references =>
    obtain ⟨i, range, r, -, rfl, -⟩ := h
    exact ⟨range, _, rfl⟩
  | scopes =>
    obtain ⟨i, range, s, -, -, rfl, -⟩ := h
    exact ⟨range, _, rfl⟩
  | documents => exact h.1

theorem exists_enters {v : Version} {key value : Bytes} (h : v.rows.get? key = some value) :
    ∃ (p : IndexPart) (k : Bytes), key = p.table.key k ∧ v.Enters p k value := by
  rcases Rows.put_mem_of_get?_apply h with h | h
  · obtain ⟨p, k, value', heq, h⟩ := mem_puts.1 h
    obtain ⟨rfl, rfl⟩ := Change.put.inj heq
    exact ⟨p, k, rfl, h⟩
  · cases h

theorem keyOf_of_get?_rows {v : Version} (hv : v.Valid) {key value : Bytes}
    (h : v.rows.get? key = some value) : KeyOf v.uri key := by
  obtain ⟨p, k, rfl, henters⟩ := exists_enters h
  exact ⟨p, k, rfl, hasKey_of_enters hv henters⟩

end Version
end PhpIndex
