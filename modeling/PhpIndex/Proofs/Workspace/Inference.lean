import PhpIndex.Proofs.Extract.Unions
import PhpIndex.Proofs.Lookup.TopLevel
import PhpIndex.Proofs.Workspace.Sources

/-!
# What a document infers and what is found

While a document is read, the types of a function or constant are taken from the declarations read
before. When it is open, a reference to one is looked up among the same declarations: those of the
name, and if there are none those of its last segment. The reading takes the functions of both
names at once, and of constants only those of the name, so that the two agree just where one of them
adds nothing.
Main statement: `inferred_as_found`.
-/
namespace PhpIndex

/-- Whether one of the types of what the symbol declares has the name. -/
def Symbol.HasType (x : Symbol) (type : String) : Prop := ∃ u ∈ x.valueTypes?, type ∈ u.names

instance (x : Symbol) (type : String) : Decidable (x.HasType type) :=
  inferInstanceAs (Decidable (∃ u ∈ x.valueTypes?, type ∈ u.names))

namespace Extract.State

/-- Whether something of the kind and name was read. -/
def Declares (s : State) (kind : TableKind) (name : String) : Prop :=
  ∃ x ∈ s.symbols, x.table? = some kind ∧ x.name = name

/-- Whether something of the kind and name was read that has a type of this name. -/
def HasType (s : State) (kind : TableKind) (name type : String) : Prop :=
  ∃ x ∈ s.symbols, x.table? = some kind ∧ x.name = name ∧ x.HasType type

instance (s : State) (kind : TableKind) (name : String) : Decidable (s.Declares kind name) :=
  inferInstanceAs (Decidable (∃ x ∈ s.symbols, x.table? = some kind ∧ x.name = name))

instance (s : State) (kind : TableKind) (name type : String) :
    Decidable (s.HasType kind name type) :=
  inferInstanceAs (Decidable
    (∃ x ∈ s.symbols, x.table? = some kind ∧ x.name = name ∧ x.HasType type))

/-- Whether a name means what was read: something of that name, or if there is nothing, of its last
segment. -/
def Means (s : State) (kind : TableKind) (name : String) (x : Symbol) : Prop :=
  x ∈ s.symbols ∧ x.table? = some kind ∧
    (x.name = name ∨ ¬ s.Declares kind name ∧ x.name = Text.afterLast '\\' name)

variable {s : State} {kind : TableKind} {name type : String}

theorem HasType.declares (h : s.HasType kind name type) : s.Declares kind name := by
  obtain ⟨x, hx, hkind, hname, -⟩ := h
  exact ⟨x, hx, hkind, hname⟩

/-- The types of all that a name means. -/
theorem exists_means_iff : (∃ x, s.Means kind name x ∧ x.HasType type) ↔
    s.HasType kind name type ∨
      ¬ s.Declares kind name ∧ s.HasType kind (Text.afterLast '\\' name) type := by
  constructor
  · rintro ⟨x, ⟨hx, hkind, hname | ⟨hnone, hname⟩⟩, htype⟩
    · exact .inl ⟨x, hx, hkind, hname, htype⟩
    · exact .inr ⟨hnone, x, hx, hkind, hname, htype⟩
  · rintro (⟨x, hx, hkind, hname, htype⟩ | ⟨hnone, x, hx, hkind, hname, htype⟩)
    · exact ⟨x, ⟨hx, hkind, .inl hname⟩, htype⟩
    · exact ⟨x, ⟨hx, hkind, .inr ⟨hnone, hname⟩⟩, htype⟩

theorem mem_names_typesWhere {pick : Symbol → Option TypeUnion} :
    type ∈ (s.typesWhere pick).names ↔ ∃ x ∈ s.symbols, ∃ u, pick x = some u ∧ type ∈ u.names := by
  have hmerge (unions : List TypeUnion) (u : TypeUnion) :
      type ∈ (unions.foldl TypeUnion.merge u).names ↔
        type ∈ u.names ∨ ∃ v ∈ unions, type ∈ v.names := by
    induction unions generalizing u with
    | nil => simp
    | cons v rest ih =>
      rw [List.foldl_cons, ih, TypeUnion.merge, TypeUnion.mem_names_foldl_push, or_assoc,
        List.exists_mem_cons_iff]
      rfl
  have hempty : type ∉ TypeUnion.empty.names := List.not_mem_nil
  rw [typesWhere, hmerge, or_iff_right hempty]
  simp only [List.mem_filterMap]
  constructor
  · rintro ⟨u, ⟨x, hx, hpick⟩, hmem⟩
    exact ⟨x, hx, u, hpick, hmem⟩
  · rintro ⟨x, hx, u, hpick, hmem⟩
    exact ⟨u, ⟨x, hx, hpick⟩, hmem⟩

/-- The reading takes the functions of a name and those of its last segment together. -/
theorem mem_names_functionTypes : type ∈ (s.functionTypes name).names ↔
    s.HasType .functions name type ∨ s.HasType .functions (Text.afterLast '\\' name) type := by
  rw [functionTypes, mem_names_typesWhere, HasType, HasType, ← exists_or]
  refine exists_congr fun x => ?_
  rw [← and_or_left]
  refine and_congr_right fun _ => ?_
  cases x with
  | function f =>
    simp [Symbol.table?, Symbol.HasType, Symbol.valueTypes?, Symbol.name, ← or_and_right]
  | _ => simp [Symbol.table?]

/-- The reading takes the constants of a name alone. -/
theorem mem_names_constantTypes : type ∈ (s.constantTypes name).names ↔
    s.HasType .constants name type := by
  rw [constantTypes, mem_names_typesWhere, HasType]
  refine exists_congr fun x => and_congr_right fun _ => ?_
  cases x with
  | constant c => simp [Symbol.table?, Symbol.HasType, Symbol.valueTypes?, Symbol.name]
  | _ => simp [Symbol.table?]

end Extract.State

/-! ## Lookups in one open document -/

namespace OpenDocuments
variable {d : Document} {kind : TableKind} {name : String}

theorem find_single (d : Document) (kind : TableKind) (name : String) :
    ((opening .empty d).source .empty).find kind name =
      .ok (Symbol.candidates ((d.symbolsOfKind kind).filter fun x => x.indexName == name)) := by
  have hstored : (Index.source .empty).find kind name = .ok [] :=
    Index.run_find_of_not_mem List.not_mem_nil
  have hopened : (opening .empty d).symbols kind (fun x => x.indexName == name) =
      (d.symbolsOfKind kind).filter fun x => x.indexName == name := List.append_nil _
  show (do
    let found ← (Index.source .empty).find kind name
    pure ((opening .empty d).merge found
      ((opening .empty d).symbols kind fun x => x.indexName == name))) = _
  rw [hstored, hopened]
  rfl

theorem mem_find_single {found : List Symbol} (hkind : kind ∉ TableKind.members)
    (hfound : ((opening .empty d).source .empty).find kind name = .ok found) {x : Symbol} :
    x ∈ found ↔ x ∈ d.symbols ∧ x.table? = some kind ∧ x.name = name := by
  rw [find_single, Except.ok.injEq] at hfound
  rw [← hfound, Symbol.mem_candidates, List.mem_filter, Document.mem_symbolsOfKind, beq_iff_eq,
    and_assoc]
  refine and_congr_right fun _ => and_congr_right fun hx => ?_
  rw [Symbol.indexName_of_topLevel hx hkind]

/-- A function or constant is found as a name means what was read of the document. -/
theorem definition_single {s : Extract.State} (hd : d.symbols = s.symbols) (ctx : DocumentContext)
    (hlead : Text.startsWith "\\" name = false) (hvariable : Text.startsWith "$" name = false)
    (hbuiltin : canonicalBuiltin? name = none) {r : Reference}
    (hkind : r.kind.topLevel? = some kind) (htables : kind = .functions ∨ kind = .constants)
    (htypes : r.types = .single (.ofAbsolute name)) :
    ∃ found, ((opening .empty d).source .empty).definition ctx r = .ok found ∧
      ∀ x, x ∈ found ↔ s.Means kind name x := by
  have hmember : kind ∉ TableKind.members := by rcases htables with rfl | rfl <;> decide
  have hclass : kind ≠ .classes := by rcases htables with rfl | rfl <;> decide
  rw [TypeName.ofAbsolute_of_not_builtin hlead hbuiltin] at htypes
  rw [SymbolSource.definition_of_topLevel hkind,
    SymbolSource.findTopLevel_single htypes hbuiltin hvariable]
  have hfind := find_single d kind name
  have hmem (x : Symbol) := mem_find_single hmember hfind (x := x)
  generalize Symbol.candidates ((d.symbolsOfKind kind).filter fun x => x.indexName == name) = hits
    at hfind hmem
  by_cases hhits : hits = []
  · have hnone : ¬ s.Declares kind name := by
      rintro ⟨x, hx, hxkind, hxname⟩
      have hxmem := (hmem x).2 ⟨hd ▸ hx, hxkind, hxname⟩
      rw [hhits] at hxmem
      cases hxmem
    have hshort := find_single d kind (Text.afterLast '\\' name)
    rw [SymbolSource.findName_of_find_nil hclass (hhits ▸ hfind) hshort]
    refine ⟨_, rfl, fun x => ?_⟩
    rw [Symbol.mem_candidates, mem_find_single hmember hshort, hd, Extract.State.Means]
    refine and_congr_right fun hx => and_congr_right fun hxkind => ?_
    rw [or_iff_right fun hxname => hnone ⟨x, hx, hxkind, hxname⟩, and_iff_right hnone]
  · obtain ⟨y, hy⟩ := List.exists_mem_of_ne_nil hits hhits
    have hdeclares : s.Declares kind name := by
      obtain ⟨hymem, hykind, hyname⟩ := (hmem y).1 hy
      exact ⟨y, hd ▸ hymem, hykind, hyname⟩
    rw [SymbolSource.findName_of_find hfind hhits]
    refine ⟨_, rfl, fun x => ?_⟩
    rw [Symbol.mem_candidates, hmem, hd, Extract.State.Means,
      or_iff_left fun h => h.1 hdeclares]

end OpenDocuments

/-- Where only one document is open, the types that it infers of a function are those of the
functions that a reference finds, just if the functions of the last segment add none to those of the
name, where there are any; and those of a constant are, just if there is one of the name, or none of
the last segment has a type. -/
theorem inferred_as_found (s : Extract.State) {d : Document} (hd : d.symbols = s.symbols)
    (ctx : DocumentContext) {name : String} (hlead : Text.startsWith "\\" name = false)
    (hvariable : Text.startsWith "$" name = false) (hbuiltin : canonicalBuiltin? name = none)
    {r : Reference} (htypes : r.types = .single (.ofAbsolute name)) :
    let source := (OpenDocuments.opening .empty d).source .empty
    let short := Text.afterLast '\\' name
    (r.kind = .function → ∃ found, source.definition ctx r = .ok found ∧
      (∀ x, x ∈ found ↔ s.Means .functions name x) ∧
      ((∀ type, type ∈ (s.functionTypes name).names ↔ ∃ x ∈ found, x.HasType type) ↔
        (s.Declares .functions name →
          ∀ type, s.HasType .functions short type → s.HasType .functions name type))) ∧
    (r.kind = .constantAccess → ∃ found, source.definition ctx r = .ok found ∧
      (∀ x, x ∈ found ↔ s.Means .constants name x) ∧
      ((∀ type, type ∈ (s.constantTypes name).names ↔ ∃ x ∈ found, x.HasType type) ↔
        (s.Declares .constants name ∨ ∀ type, ¬ s.HasType .constants short type))) := by
  intro source short
  constructor
  · intro hkind
    have htable : r.kind.topLevel? = some .functions := congrArg ReferenceKind.topLevel? hkind
    obtain ⟨found, hfound, hmeans⟩ := OpenDocuments.definition_single hd ctx hlead hvariable
      hbuiltin htable (.inl rfl) htypes
    refine ⟨found, hfound, hmeans, ?_⟩
    simp only [hmeans, Extract.State.exists_means_iff, Extract.State.mem_names_functionTypes]
    constructor
    · intro h hdeclares type hshort
      exact ((h type).1 (.inr hshort)).resolve_right fun hnone => hnone.1 hdeclares
    · intro h type
      refine or_congr_right' fun hnot => ⟨fun hshort => ⟨fun hdeclares => ?_, hshort⟩, And.right⟩
      exact hnot (h hdeclares type hshort)
  · intro hkind
    have htable : r.kind.topLevel? = some .constants := congrArg ReferenceKind.topLevel? hkind
    obtain ⟨found, hfound, hmeans⟩ := OpenDocuments.definition_single hd ctx hlead hvariable
      hbuiltin htable (.inr rfl) htypes
    refine ⟨found, hfound, hmeans, ?_⟩
    simp only [hmeans, Extract.State.exists_means_iff, Extract.State.mem_names_constantTypes]
    constructor
    · intro h
      by_cases hdeclares : s.Declares .constants name
      · exact .inl hdeclares
      · refine .inr fun type hshort => hdeclares ?_
        exact ((h type).2 (.inr ⟨hdeclares, hshort⟩)).declares
    · rintro h type
      refine ⟨.inl, fun hfallback => hfallback.resolve_right ?_⟩
      rintro ⟨hnone, hshort⟩
      exact h.elim hnone fun hnot => hnot type hshort

/-- A function that returns a value of this type, and a constant of it. -/
def returning (name type : String) : Symbol :=
  .function ⟨name, .of "a.php" ⟨6, 20⟩, ⟨[], .single ⟨type, true⟩⟩, none⟩

def constantOf (name type : String) : Symbol :=
  .constant ⟨false, name, .of "a.php" ⟨22, 40⟩, none, .single ⟨type, true⟩, none⟩

/-- A function of no namespace that is called in one, and a constant of the namespace. -/
theorem inferred_as_found_fallback :
    let symbols := [returning "f" "int", constantOf "App\\X" "int", constantOf "X" "string"]
    let s : Extract.State := { Extract.State.start "a.php" "" with symbols }
    let d := Document.ofSymbols "a.php" symbols
    let source := (OpenDocuments.opening .empty d).source .empty
    let call : Reference :=
      { kind := .function, types := .single (.ofAbsolute "App\\f"), location := .empty }
    let access : Reference :=
      { kind := .constantAccess, types := .single (.ofAbsolute "App\\X"), location := .empty }
    (∃ found, source.definition (.empty "a.php") call = .ok found ∧
      ∀ type, type ∈ (s.functionTypes "App\\f").names ↔ ∃ x ∈ found, x.HasType type) ∧
    ∃ found, source.definition (.empty "a.php") access = .ok found ∧
      ∀ type, type ∈ (s.constantTypes "App\\X").names ↔ ∃ x ∈ found, x.HasType type := by
  intro symbols s d source call access
  have hd : d.symbols = s.symbols := rfl
  have hcalled : call.types = .single (.ofAbsolute "App\\f") := rfl
  have haccessed : access.types = .single (.ofAbsolute "App\\X") := rfl
  obtain ⟨found, hfound, -, hcall⟩ := (inferred_as_found s hd (.empty "a.php")
    (by decide) (by decide) (by decide) hcalled).1 rfl
  obtain ⟨found', hfound', -, haccess⟩ := (inferred_as_found s hd (.empty "a.php")
    (by decide) (by decide) (by decide) haccessed).2 rfl
  have hundeclared : ¬ s.Declares .functions "App\\f" := by decide
  have hdeclared : s.Declares .constants "App\\X" := by decide
  exact ⟨⟨found, hfound, hcall.2 fun h => absurd h hundeclared⟩, found', hfound',
    haccess.2 (.inl hdeclared)⟩

/-- A function of the namespace and one of none, whose types are inferred together though only the
first is found, and a constant of no namespace that is found there but not inferred. -/
theorem inferred_unlike_found :
    let symbols := [returning "App\\f" "int", returning "f" "string", constantOf "X" "int"]
    let s : Extract.State := { Extract.State.start "a.php" "" with symbols }
    let d := Document.ofSymbols "a.php" symbols
    let source := (OpenDocuments.opening .empty d).source .empty
    let call : Reference :=
      { kind := .function, types := .single (.ofAbsolute "App\\f"), location := .empty }
    let access : Reference :=
      { kind := .constantAccess, types := .single (.ofAbsolute "App\\X"), location := .empty }
    (∃ found, source.definition (.empty "a.php") call = .ok found ∧
      "string" ∈ (s.functionTypes "App\\f").names ∧ ¬ ∃ x ∈ found, x.HasType "string") ∧
    ∃ found, source.definition (.empty "a.php") access = .ok found ∧
      (∃ x ∈ found, x.HasType "int") ∧ "int" ∉ (s.constantTypes "App\\X").names := by
  intro symbols s d source call access
  have hd : d.symbols = s.symbols := rfl
  have hcalled : call.types = .single (.ofAbsolute "App\\f") := rfl
  have haccessed : access.types = .single (.ofAbsolute "App\\X") := rfl
  have hfunctions : call.kind.topLevel? = some .functions := rfl
  have hconstants : access.kind.topLevel? = some .constants := rfl
  obtain ⟨found, hfound, hcall⟩ := OpenDocuments.definition_single hd (.empty "a.php")
    (by decide) (by decide) (by decide) hfunctions (.inl rfl) hcalled
  obtain ⟨found', hfound', haccess⟩ := OpenDocuments.definition_single hd (.empty "a.php")
    (by decide) (by decide) (by decide) hconstants (.inr rfl) haccessed
  refine ⟨⟨found, hfound, by decide, ?_⟩, found', hfound', ?_, by decide⟩
  · simp only [hcall, Extract.State.exists_means_iff]
    decide
  · simp only [haccess, Extract.State.exists_means_iff]
    decide

end PhpIndex
