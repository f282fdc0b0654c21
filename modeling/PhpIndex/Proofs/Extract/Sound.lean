import PhpIndex.Extract.State
import PhpIndex.Proofs.Record.Fixed
import PhpIndex.Proofs.Symbol.Normal

/-!
# Sound findings

What a reading may find: places in its document within its text, tidy unions of types, and
declarations that belong in a table. The state of a reading is sound if all that it holds is, and
every step of a reading keeps it so. Steps other than the beginning and the end of a function
keep where the open scopes lie and which scopes were left.
Main statements: `State.Sound.bind`, `State.Sound.record`, `State.tidy_resolveTypes`.
-/
namespace PhpIndex

/-- Whether the range ends within a text of so many bytes. -/
def Range.Within (size : Nat) (r : Range) : Prop := r.start.toNat ≤ size ∧ r.stop.toNat ≤ size

instance (size : Nat) : DecidablePred (Range.Within size) := fun _ =>
  inferInstanceAs (Decidable (_ ∧ _))

/-- Whether a member is named, by the use of it or by the arguments that it is given. -/
def Reference.namesMember (r : Reference) : Bool :=
  r.kind.isMember || r.kind = .argumentList && r.scope?.isSome

/-- Only the name of a member may be spelled in a way that does not survive storing. -/
structure Reference.Sound (uri : String) (size : Nat) (r : Reference) : Prop where
  located : ∃ range : Range, r.location = .of uri range ∧ range.Within size
  scope : ∀ u ∈ r.scope?, u.Tidy
  types : r.types.Tidy ∨ ∃ name, r.types = .single (.verbatim name)
  ofVariable : r.kind = .variable → ∃ name, r.types = .single (.ofSource name)
  ofMember : r.namesMember = true → ∀ t ∈ r.types.types, t.absolute = false

theorem Reference.Sound.name {uri : String} {size : Nat} {r : Reference} (h : r.Sound uri size)
    (hkind : r.kind = .variable) : Text.startsWith "\\" r.name = false := by
  obtain ⟨name, htypes⟩ := h.ofVariable hkind
  rw [Reference.name, htypes]
  exact TypeName.startsWith_ofSource name

structure Symbol.Sound (uri : String) (s : Symbol) : Prop where
  located : ∃ range, s.location = .of uri range
  table : s.table?.isSome
  tidy : s.Tidy
  parameters : ∀ g ∈ s.signature?, ∀ p ∈ g.parameters, p.location.Whole

namespace Extract

/-- What may be said of an item. -/
def Item.Sound (uri : String) (size : Nat) : Item → Prop
  | .name _ range => range.Within size
  | .type types range => types.Tidy ∧ range.Within size
  | .value types range => types.Tidy ∧ range.Within size
  | .reference r types => r.Sound uri size ∧ types.Tidy
  | .symbol s => s.Sound uri
  | .parameter p => p.types.Tidy ∧ p.location.Whole
  | .arguments l => l.range.Within size
  | .useClause c => c.range.Within size
  | .element e => e.range.Within size ∧ e.value.Tidy
  | .returned types => types.Tidy
  | _ => True

structure State.Sound (uri : String) (size : Nat) (s : State) : Prop where
  document : s.uri = uri
  globals : s.globals.Tidy
  globalsAt : ∃ range, s.globals.location = .of uri range
  scopes : ∀ x ∈ s.scopes, x.Tidy
  finished : ∀ x ∈ s.finished, x.Tidy
  symbols : ∀ x ∈ s.symbols, x.Sound uri
  references : ∀ r ∈ s.references, r.Sound uri size

/-- Whether a step left alone where the open scopes lie and which scopes are finished. -/
structure State.Keeps (s s' : State) : Prop where
  scopes : s'.scopes.map VariableScope.location = s.scopes.map VariableScope.location
  finished : s'.finished = s.finished

namespace State

theorem Keeps.refl (s : State) : s.Keeps s := ⟨rfl, rfl⟩

theorem Keeps.trans {a b c : State} (hab : a.Keeps b) (hbc : b.Keeps c) : a.Keeps c :=
  ⟨hbc.scopes.trans hab.scopes, hbc.finished.trans hab.finished⟩

theorem sound_start (uri source : String) (size : Nat) : (start uri source).Sound uri size where
  document := rfl
  globals := VariableScope.tidy_empty _
  globalsAt := ⟨_, rfl⟩
  scopes := fun _ h => absurd h List.not_mem_nil
  finished := fun _ h => absurd h List.not_mem_nil
  symbols := fun _ h => absurd h List.not_mem_nil
  references := fun _ h => absurd h List.not_mem_nil

/-! ## Names -/

theorem steady_resolveClass (s : State) (raw : String) : (s.resolveClass raw).Steady := by
  simp only [resolveClass]
  split
  · split
    · exact TypeName.steady_ofAbsolute _
    · exact TypeName.steady_ofSource _
  · exact TypeName.steady_resolveAs _ _ _

theorem steady_resolveType (s : State) (t : TypeName) : (s.resolveType t).Steady := by
  unfold resolveType
  split
  next h =>
    rcases Bool.or_eq_true_iff.1 h with h | h
    · exact TypeName.steady_of_isVariable h
    · exact .inl (Bool.and_eq_true_iff.1 h).1
  · exact s.steady_resolveClass _

/-- Whatever the union was, its names are resolved. -/
theorem tidy_resolveTypes (s : State) (u : TypeUnion) : (s.resolveTypes u).Tidy := by
  refine TypeUnion.tidy_ofList fun t ht => ?_
  obtain ⟨t, -, rfl⟩ := List.mem_map.1 ht
  exact s.steady_resolveType t

variable {uri : String} {size : Nat} {s : State}

theorem Sound.locate (h : s.Sound uri size) (range : Range) : s.locate range = .of uri range := by
  rw [State.locate, h.document]

theorem Sound.classReference (h : s.Sound uri size) {t : TypeName} (ht : t.Steady)
    {range : Range} (hrange : range.Within size) : (s.classReference t range).Sound uri size :=
  ⟨⟨⟨range, h.locate range, hrange⟩, nofun, .inl (TypeUnion.tidy_single ht), nofun,
    nofun⟩,
    TypeUnion.tidy_empty⟩

/-! ## Variables -/

theorem Sound.innermost (h : s.Sound uri size) : s.innermost.Tidy := by
  unfold State.innermost
  cases hscopes : s.scopes with
  | nil => exact h.globals
  | cons scope outer => exact h.scopes scope (hscopes ▸ List.mem_cons_self)

theorem Sound.variableReference (h : s.Sound uri size) (name : String) {range : Range}
    (hrange : range.Within size) : (s.variableReference name range).Sound uri size :=
  ⟨⟨⟨range, h.locate range, hrange⟩, nofun,
    .inl (TypeUnion.tidy_single (TypeName.steady_ofSource name)),
    fun _ => ⟨name, rfl⟩, nofun⟩, h.innermost.getD name⟩

theorem keeps_bind (s : State) (name : String) (types : TypeUnion) :
    s.Keeps (s.bind name types) := by
  unfold State.bind
  split
  next hnil => exact ⟨by rw [hnil], rfl⟩
  next scope outer hcons => exact ⟨by rw [hcons]; rfl, rfl⟩

theorem Sound.bind (h : s.Sound uri size) (name : String) {types : TypeUnion}
    (htypes : types.Tidy) : (s.bind name types).Sound uri size := by
  unfold State.bind
  split
  · exact { h with globals := h.globals.bind name htypes }
  next scope outer hcons =>
    refine { h with scopes := fun x hx => ?_ }
    have hmem : ∀ x ∈ scope :: outer, x.Tidy := hcons ▸ h.scopes
    rcases List.mem_cons.1 hx with rfl | hx
    · exact (hmem scope List.mem_cons_self).bind name htypes
    · exact hmem x (List.mem_cons_of_mem scope hx)

theorem Sound.openScope (h : s.Sound uri size) {scope : VariableScope} (hscope : scope.Tidy) :
    (s.openScope scope).Sound uri size := by
  refine { h with scopes := fun x hx => ?_ }
  rcases List.mem_cons.1 hx with rfl | hx
  · exact hscope
  · exact h.scopes x hx

theorem Sound.closeScope (h : s.Sound uri size) : s.closeScope.Sound uri size := by
  unfold State.closeScope
  split
  · exact h
  next scope outer hcons =>
    have hmem : ∀ x ∈ scope :: outer, x.Tidy := hcons ▸ h.scopes
    refine { h with
      scopes := fun x hx => hmem x (List.mem_cons_of_mem scope hx)
      finished := fun x hx => ?_ }
    rcases List.mem_append.1 hx with hx | hx
    · exact h.finished x hx
    · exact hmem x (List.mem_singleton.1 hx ▸ List.mem_cons_self)

/-! ## Declarations read before -/

theorem Sound.typesWhere (h : s.Sound uri size) {pick : Symbol → Option TypeUnion}
    (hpick : ∀ x, x.Sound uri → ∀ u ∈ pick x, u.Tidy) : (s.typesWhere pick).Tidy := by
  have hall : ∀ u ∈ s.symbols.filterMap pick, u.Tidy := by
    intro u hu
    obtain ⟨x, hx, hpicked⟩ := List.mem_filterMap.1 hu
    exact hpick x (h.symbols x hx) u hpicked
  have hfold : ∀ (us : List TypeUnion) (v : TypeUnion), v.Tidy → (∀ u ∈ us, u.Tidy) →
      (us.foldl TypeUnion.merge v).Tidy := by
    intro us
    induction us with
    | nil => exact fun v hv _ => hv
    | cons u rest ih =>
      exact fun v hv hus => ih _ (hv.merge (hus u List.mem_cons_self))
        fun w hw => hus w (List.mem_cons_of_mem u hw)
  exact hfold _ _ TypeUnion.tidy_empty hall

theorem Sound.functionTypes (h : s.Sound uri size) (name : String) :
    (s.functionTypes name).Tidy := by
  refine h.typesWhere fun x hx u hu => ?_
  cases x with
  | function f =>
    simp only at hu
    split at hu
    · exact hx.tidy.valueTypes u hu
    · cases hu
  | _ => cases hu

theorem Sound.constantTypes (h : s.Sound uri size) (name : String) :
    (s.constantTypes name).Tidy := by
  refine h.typesWhere fun x hx u hu => ?_
  cases x with
  | constant c =>
    simp only at hu
    split at hu
    · exact hx.tidy.valueTypes u hu
    · cases hu
  | _ => cases hu

theorem Sound.memberTypes (h : s.Sound uri size) (scope : TypeUnion) (name : String)
    (kind : ReferenceKind) : (s.memberTypes scope name kind).Tidy := by
  refine h.typesWhere fun x hx u hu => ?_
  split at hu
  · split at hu
    · exact hx.tidy.valueTypes u hu
    · cases hu
  · cases hu

/-! ## Findings -/

theorem Sound.record (h : s.Sound uri size) {item : Item} (hitem : item.Sound uri size) :
    (s.record item).Sound uri size := by
  cases item with
  | symbol x =>
    refine { h with symbols := fun y hy => ?_ }
    rcases List.mem_append.1 hy with hy | hy
    · exact h.symbols y hy
    · exact List.mem_singleton.1 hy ▸ hitem
  | reference r value =>
    unfold State.record
    simp only
    split
    · exact h
    · refine { h with references := fun y hy => ?_ }
      rcases List.mem_append.1 hy with hy | hy
      · exact h.references y hy
      · exact List.mem_singleton.1 hy ▸ hitem.1
  | _ => exact h

theorem keeps_record (s : State) (item : Item) : s.Keeps (s.record item) := by
  cases item with
  | reference r value =>
    unfold State.record
    simp only
    split
    · exact .refl s
    · exact ⟨rfl, rfl⟩
  | _ => exact ⟨rfl, rfl⟩

end State
end Extract
end PhpIndex
