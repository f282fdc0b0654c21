import PhpIndex.Extract.Walk
import PhpIndex.Proofs.OrderedMap

/-!
# Disciplines of type names

Types flow through a reading in many ways: as they are written, from documentation, from
declarations read before, and by way of variables. A discipline says what is asked of the type
names on the way, and of the spellings that they are made of. If it is lawful every step of a
reading keeps it.
Main statements: `State.Typed.bind`, `State.Typed.record`, `State.Typed.memberTypes`.
-/
namespace PhpIndex

/-! ## Type names in unions, declarations and scopes -/

namespace TypeUnion

/-- Whether all names of the union are of this sort. -/
def All (P : TypeName → Prop) (u : TypeUnion) : Prop := ∀ t ∈ u.types, P t

variable {P Q : TypeName → Prop} {u v : TypeUnion} {t : TypeName}

theorem all_empty : empty.All P := List.forall_mem_nil _

theorem all_single (h : P t) : (single t).All P := List.forall_mem_singleton.2 h

theorem All.mono (h : u.All P) (hle : ∀ t, P t → Q t) : u.All Q := fun t ht => hle t (h t ht)

theorem All.push (h : u.All P) (ht : P t) : (u.push t).All P := by
  unfold TypeUnion.push
  split
  · exact h
  · exact List.forall_mem_append.2 ⟨h, List.forall_mem_singleton.2 ht⟩

theorem All.foldl_push {ts : List TypeName} (hts : ∀ t ∈ ts, P t) (h : u.All P) :
    (ts.foldl TypeUnion.push u).All P := by
  induction ts generalizing u with
  | nil => exact h
  | cons t rest ih =>
    obtain ⟨ht, hrest⟩ := List.forall_mem_cons.1 hts
    exact ih hrest (h.push ht)

theorem all_ofList {ts : List TypeName} (h : ∀ t ∈ ts, P t) : (ofList ts).All P :=
  all_empty.foldl_push h

theorem All.merge (hu : u.All P) (hv : v.All P) : (u.merge v).All P := hu.foldl_push hv

theorem All.getD {o? : Option TypeUnion} (ho : ∀ w ∈ o?, w.All P) (h : u.All P) :
    (o?.getD u).All P := by
  cases o? with
  | none => exact h
  | some w => exact ho w rfl

end TypeUnion

namespace VariableScope

/-- Whether all types that are bound are of this sort. -/
def All (P : TypeName → Prop) (s : VariableScope) : Prop := ∀ e ∈ s.types.entries, e.2.All P

variable {P : TypeName → Prop} {s : VariableScope}

theorem all_empty (location : Location) : (empty location).All P := nofun

theorem All.get? (h : s.All P) {name : String} : ∀ u ∈ s.get? name, u.All P := fun u hu =>
  h (key name, u) ((OrderedMap.get?_eq_some_iff s.types _ u).1 hu)

theorem All.getD (h : s.All P) (name : String) : ((s.get? name).getD .empty).All P :=
  TypeUnion.All.getD h.get? TypeUnion.all_empty

theorem All.bind (h : s.All P) (name : String) {types : TypeUnion} (htypes : types.All P) :
    (s.bind name types).All P := by
  intro e he
  rcases OrderedMap.mem_insertEntry he with rfl | he
  · exact (h.getD name).merge htypes
  · exact h e he

end VariableScope

def Signature.typeNames (s : Signature) : List TypeName :=
  s.parameters.flatMap (fun p => p.types.types) ++ s.returnTypes.types

namespace Symbol

/-- The names in all types of a declaration. -/
def typeNames : Symbol → List TypeName
  | .classLike _ => []
  | .function f => f.signature.typeNames
  | .method m => m.signature.typeNames
  | .property p => p.types.types
  | .constant c => c.types.types
  | .classConstant c => c.types.types
  | .variable v => v.types.types

theorem all_valueTypes {P : TypeName → Prop} {x : Symbol} (h : ∀ t ∈ x.typeNames, P t) :
    ∀ u ∈ x.valueTypes?, u.All P := by
  intro u hu
  cases x with
  | classLike c => cases hu
  | function f =>
    cases hu
    exact (List.forall_mem_append.1 h).2
  | method m =>
    cases hu
    exact (List.forall_mem_append.1 h).2
  | _ =>
    cases hu
    exact h

end Symbol

namespace Extract

/-! ## Disciplines -/

/-- What is asked of type names, and of spellings that they are made of. -/
structure Discipline where
  /-- Of the types of values and declarations. -/
  type : TypeName → Prop
  /-- Of the names in a reference, and of what its member is taken from. -/
  used : TypeName → Prop
  /-- Of absolute names of classes. -/
  owner : String → Prop
  /-- Of a name, given whether the words for the class around are replaced where it stands. -/
  spelled : Bool → String → Bool
  /-- Of a type that is a keyword. -/
  keyword : String → Bool
  /-- Of a type in documentation, given whether those words are replaced. -/
  documented : Bool → TypeName → Bool
  /-- Of a variable that a member is taken from. -/
  accessed : String → Bool

end Extract

/-- Whether the names that are to be looked up, and those of the scope, are as asked. A member
access has the name of its member for a type, and a variable its own name. -/
structure Reference.Typed (D : Extract.Discipline) (r : Reference) : Prop where
  types : r.kind ∈ [.function, .constantAccess, .className, .newOperand] ∨
    r.kind = .argumentList ∧ r.scope? = none → r.types.All D.used
  scope : ∀ u ∈ r.scope?, u.All D.used

namespace Extract
variable {D : Discipline}

/-- Whether the type names of the item are as asked. `replaced` tells whether the words for the
class around are replaced where a name stands. -/
def Item.Typed (D : Discipline) (replaced : Bool) : Item → Prop
  | .name text _ => D.spelled replaced text = true
  | .type types _ => types.All D.type
  | .value types _ => types.All D.type
  | .reference r types => r.Typed D ∧ types.All D.type
  | .symbol x => ∀ t ∈ x.typeNames, D.type t
  | .parameter p => p.types.All D.type
  | .argument a => a.value.All D.type
  | .arguments l => ∀ a ∈ l.arguments, a.value.All D.type
  | .names _ owners => ∀ name ∈ owners, D.owner name
  | .useClause c => D.spelled false c.name = true
  | .element e => e.value.All D.type
  | .returned types => types.All D.type
  | _ => True

structure State.Typed (D : Discipline) (s : State) : Prop where
  imports : ∀ known target, s.imports.classes.get? known = some target → D.owner target
  globals : s.globals.All D.type
  scopes : ∀ x ∈ s.scopes, x.All D.type
  finished : ∀ x ∈ s.finished, x.All D.type
  names : ∀ c ∈ s.classes, c.name.isEmpty = false → D.owner c.name
  parents : ∀ c ∈ s.classes, ∀ parent ∈ c.parent?, D.owner parent
  symbols : ∀ x ∈ s.symbols, ∀ t ∈ x.typeNames, D.type t
  references : ∀ r ∈ s.references, r.Typed D

/-- The types that literals and operators have. -/
def inferredTypes : List String := ["array", "string", "bool", "int", "float", "null"]

/-- Whether what a reading makes of names and types that are as asked is so as well. -/
structure Discipline.Lawful (D : Discipline) : Prop where
  inferred : ∀ name ∈ inferredTypes, D.type (.ofSource name)
  closure : D.type (.ofAbsolute "Closure")
  ofOwner : ∀ name, D.owner name → D.type (.ofAbsolute name)
  owner : ∀ t, D.type t → D.owner t.name
  used : ∀ t, D.type t → D.used t
  absolute : ∀ name, D.used (.ofAbsolute name)
  accessed : ∀ name, D.accessed name = true → D.used (.verbatim name)
  keyword : ∀ text, D.keyword text = true → D.type (.ofSource text)
  className : ∀ (imports : Imports) text, D.spelled false text = true →
    D.owner (imports.namespaced text)
  target : ∀ (u : UseStatement) (c : UseClause), D.spelled false c.name = true →
    D.owner (Imports.trimLead (u.target c))
  resolveClass : ∀ (s : State) replaced text, s.Typed D →
    (replaced = true → s.memberScope?.isSome = true) → D.spelled replaced text = true →
    D.type (s.resolveClass text)
  resolveType : ∀ (s : State) t, s.Typed D → D.type t → D.type (s.resolveType t)
  documented : ∀ (s : State) t, s.Typed D → D.documented s.memberScope?.isSome t = true →
    D.type (s.resolveType t)

/-! ## States -/

namespace State
variable {s : State}

theorem typed_start (uri source : String) : (start uri source).Typed D where
  imports := fun known target htarget => by
    rw [start, Imports.empty, OrderedMap.get?_empty] at htarget
    cases htarget
  globals := VariableScope.all_empty _
  scopes := List.forall_mem_nil _
  finished := List.forall_mem_nil _
  names := List.forall_mem_nil _
  parents := List.forall_mem_nil _
  symbols := List.forall_mem_nil _
  references := List.forall_mem_nil _

namespace Typed

/-! ### Variables -/

theorem innermost (h : s.Typed D) : s.innermost.All D.type := by
  unfold State.innermost
  cases hscopes : s.scopes with
  | nil => exact h.globals
  | cons scope outer => exact h.scopes scope (hscopes ▸ List.mem_cons_self)

theorem bind (h : s.Typed D) (name : String) {types : TypeUnion} (htypes : types.All D.type) :
    (s.bind name types).Typed D := by
  unfold State.bind
  split
  · exact { h with globals := h.globals.bind name htypes }
  next scope outer hcons =>
    have hmem := h.scopes
    rw [hcons] at hmem
    obtain ⟨hscope, houter⟩ := List.forall_mem_cons.1 hmem
    exact { h with scopes := List.forall_mem_cons.2 ⟨hscope.bind name htypes, houter⟩ }

theorem openScope (h : s.Typed D) {scope : VariableScope} (hscope : scope.All D.type) :
    (s.openScope scope).Typed D :=
  { h with scopes := List.forall_mem_cons.2 ⟨hscope, h.scopes⟩ }

theorem closeScope (h : s.Typed D) : s.closeScope.Typed D := by
  unfold State.closeScope
  split
  · exact h
  next scope outer hcons =>
    have hmem := h.scopes
    rw [hcons] at hmem
    obtain ⟨hscope, houter⟩ := List.forall_mem_cons.1 hmem
    exact { h with
      scopes := houter
      finished := List.forall_mem_append.2 ⟨h.finished, List.forall_mem_singleton.2 hscope⟩ }

/-! ### Classes -/

theorem owner (h : s.Typed D) {name : String} (hname : s.memberScope? = some name) :
    D.owner name := by
  unfold State.memberScope? at hname
  cases hclasses : s.classes with
  | nil =>
    rw [hclasses] at hname
    cases hname
  | cons c outer =>
    rw [hclasses] at hname
    simp only [Option.ite_none_left_eq_some, Bool.or_eq_true, not_or, Bool.not_eq_true,
      Option.some.injEq] at hname
    obtain ⟨⟨-, hempty⟩, rfl⟩ := hname
    exact h.names c (hclasses ▸ List.mem_cons_self) hempty

theorem openClass (h : s.Typed D) (anonymous : Bool) :
    (s.openClass { anonymous }).Typed D where
  imports := h.imports
  globals := h.globals
  scopes := h.scopes
  finished := h.finished
  names := List.forall_mem_cons.2 ⟨nofun, h.names⟩
  parents := List.forall_mem_cons.2 ⟨nofun, h.parents⟩
  symbols := h.symbols
  references := h.references

theorem closeClass (h : s.Typed D) : s.closeClass.Typed D :=
  { h with
    names := fun c hc => h.names c (List.mem_of_mem_tail hc)
    parents := fun c hc => h.parents c (List.mem_of_mem_tail hc) }

theorem modifyClass (h : s.Typed D) (f : ClassContext → ClassContext)
    (hf : ∀ c ∈ s.classes, ((f c).name.isEmpty = false → D.owner (f c).name) ∧
      ∀ parent ∈ (f c).parent?, D.owner parent) : (s.modifyClass f).Typed D := by
  unfold State.modifyClass
  split
  · exact h
  next c outer hcons =>
    have hnames := h.names
    have hparents := h.parents
    rw [hcons] at hf hnames hparents
    exact { h with
      names := List.forall_mem_cons.2
        ⟨(hf c List.mem_cons_self).1, (List.forall_mem_cons.1 hnames).2⟩
      parents := List.forall_mem_cons.2
        ⟨(hf c List.mem_cons_self).2, (List.forall_mem_cons.1 hparents).2⟩ }

/-! ### Imports -/

theorem withImports (h : s.Typed D) {imports : Imports}
    (himports : ∀ known target, imports.classes.get? known = some target → D.owner target) :
    { s with imports := imports }.Typed D :=
  { h with imports := himports }

theorem setNamespace (h : s.Typed D) (name : String) :
    { s with imports := s.imports.setNamespace name }.Typed D := by
  refine h.withImports fun known target htarget => ?_
  simp only [Imports.setNamespace] at htarget
  exact h.imports known target htarget

theorem noImports (h : s.Typed D) : { s with imports := .empty }.Typed D :=
  h.withImports fun known target htarget => by
    rw [Imports.empty, OrderedMap.get?_empty] at htarget
    cases htarget

theorem addImport (h : s.Typed D) (kind : ImportKind) {name : String}
    (hname : D.owner (Imports.trimLead name)) (alias? : Option String) :
    { s with imports := s.imports.addImport kind name alias? }.Typed D := by
  refine h.withImports fun known target htarget => ?_
  unfold Imports.addImport at htarget
  simp only at htarget
  split at htarget
  · exact h.imports known target htarget
  · cases kind with
    | «class» =>
      simp only [Imports.withAlias, OrderedMap.get?_insert] at htarget
      split at htarget
      · exact Option.some.inj htarget ▸ hname
      · exact h.imports known target htarget
    | function => exact h.imports known target htarget
    | constant => exact h.imports known target htarget

/-! ### Declarations read before -/

theorem typesWhere (h : s.Typed D) {pick : Symbol → Option TypeUnion}
    (hpick : ∀ x u, pick x = some u → x.valueTypes? = some u) : (s.typesWhere pick).All D.type := by
  have hall : ∀ u ∈ s.symbols.filterMap pick, u.All D.type := by
    intro u hu
    obtain ⟨x, hx, hpicked⟩ := List.mem_filterMap.1 hu
    exact x.all_valueTypes (h.symbols x hx) u (hpick x u hpicked)
  have hfold : ∀ (us : List TypeUnion) (v : TypeUnion), v.All D.type →
      (∀ u ∈ us, u.All D.type) → (us.foldl TypeUnion.merge v).All D.type := by
    intro us
    induction us with
    | nil => exact fun v hv _ => hv
    | cons u rest ih =>
      intro v hv hus
      obtain ⟨hu, hrest⟩ := List.forall_mem_cons.1 hus
      exact ih _ (hv.merge hu) hrest
  exact hfold _ _ TypeUnion.all_empty hall

theorem functionTypes (h : s.Typed D) (name : String) : (s.functionTypes name).All D.type := by
  refine h.typesWhere fun x u hu => ?_
  cases x with
  | function f =>
    simp only [Option.ite_none_right_eq_some] at hu
    exact hu.2
  | _ => cases hu

theorem constantTypes (h : s.Typed D) (name : String) : (s.constantTypes name).All D.type := by
  refine h.typesWhere fun x u hu => ?_
  cases x with
  | constant c =>
    simp only [Option.ite_none_right_eq_some] at hu
    exact hu.2
  | _ => cases hu

theorem memberTypes (h : s.Typed D) (scope : TypeUnion) (name : String) (kind : ReferenceKind) :
    (s.memberTypes scope name kind).All D.type := by
  refine h.typesWhere fun x u hu => ?_
  split at hu
  · rw [Option.ite_none_right_eq_some] at hu
    exact hu.2
  · cases hu

/-! ### Names and findings -/

theorem resolveTypes (hD : D.Lawful) (h : s.Typed D) {u : TypeUnion} (hu : u.All D.type) :
    (s.resolveTypes u).All D.type :=
  TypeUnion.all_ofList (List.forall_mem_map.2 fun t ht => hD.resolveType s t h (hu t ht))

theorem resolveDocumented (hD : D.Lawful) (h : s.Typed D) {u : TypeUnion}
    (hu : ∀ t ∈ u.types, D.documented s.memberScope?.isSome t = true) :
    (s.resolveTypes u).All D.type :=
  TypeUnion.all_ofList (List.forall_mem_map.2 fun t ht => hD.documented s t h (hu t ht))

theorem record (h : s.Typed D) {replaced : Bool} {item : Item} (hitem : item.Typed D replaced) :
    (s.record item).Typed D := by
  cases item with
  | symbol x =>
    exact { h with
      symbols := List.forall_mem_append.2 ⟨h.symbols, List.forall_mem_singleton.2 hitem⟩ }
  | reference r value =>
    unfold State.record
    simp only
    split
    · exact h
    · exact { h with
        references :=
          List.forall_mem_append.2 ⟨h.references, List.forall_mem_singleton.2 hitem.1⟩ }
  | _ => exact h

end Typed
end State

end Extract
end PhpIndex
