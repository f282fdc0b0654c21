import PhpIndex.Lookup.Help
import PhpIndex.Proofs.Name.Normal

/-!
# Symbols that survive storing

A declaration all of whose unions are tidy shows the same after it was stored: its label, the
labels of its parameters and what is looked up of it.
Main statements: `Symbol.Tidy.label_normal`, `Symbol.Tidy.info_normal`.
-/
namespace PhpIndex

namespace Location

@[simp] theorem normal_of (uri : String) (range : Range) :
    (Location.of uri range).normal = .of uri range := rfl

end Location

namespace Parameter

@[simp] theorem name_normal (p : Parameter) : p.normal.name = p.name := rfl

theorem label_normal {p : Parameter} (h : p.types.Tidy) : p.normal.label = p.label := by
  unfold label normal
  rw [h.isEmpty_normal, h.render_normal]

end Parameter

namespace Signature

/-- Whether the unions of the parameters and of the result are tidy. -/
structure Tidy (s : Signature) : Prop where
  parameters : ∀ p ∈ s.parameters, p.types.Tidy
  returnTypes : s.returnTypes.Tidy

namespace Tidy
variable {s : Signature}

theorem labels_normal (h : s.Tidy) :
    s.normal.parameters.map Parameter.label = s.parameters.map Parameter.label := by
  rw [normal, List.map_map]
  exact List.map_congr_left fun p hp => Parameter.label_normal (h.parameters p hp)

theorem label_normal (h : s.Tidy) (name : String) : s.normal.label name = s.label name := by
  have hreturn : s.normal.returnTypes = s.returnTypes.normal := rfl
  rw [label, label, h.labels_normal, hreturn, h.returnTypes.isEmpty_normal,
    h.returnTypes.render_normal]

end Tidy
end Signature

namespace Symbol

/-- Whether all unions of the symbol are tidy. -/
def Tidy : Symbol → Prop
  | .classLike _ => True
  | .function f => f.signature.Tidy
  | .method m => m.signature.Tidy
  | .property p => p.types.Tidy
  | .constant c => c.types.Tidy
  | .classConstant c => c.types.Tidy
  | .variable v => v.types.Tidy

@[simp] theorem isStatic_normal (s : Symbol) : s.normal.isStatic = s.isStatic := by
  cases s <;> rfl

@[simp] theorem description?_normal (s : Symbol) : s.normal.description? = s.description? := by
  cases s <;> rfl

@[simp] theorem classDecl?_normal (s : Symbol) :
    s.normal.classDecl? = s.classDecl?.map ClassDecl.normal := by
  cases s <;> rfl

@[simp] theorem signature?_normal (s : Symbol) :
    s.normal.signature? = s.signature?.map Signature.normal := by
  cases s <;> rfl

namespace Tidy
variable {s : Symbol}

theorem valueTypes (h : s.Tidy) : ∀ u ∈ s.valueTypes?, u.Tidy := by
  intro u hu
  cases s with
  | classLike c => cases hu
  | function f =>
    cases hu
    exact Signature.Tidy.returnTypes h
  | method m =>
    cases hu
    exact Signature.Tidy.returnTypes h
  | property p =>
    cases hu
    exact h
  | constant c =>
    cases hu
    exact h
  | classConstant c =>
    cases hu
    exact h
  | «variable» v =>
    cases hu
    exact h

theorem signature (h : s.Tidy) : ∀ g ∈ s.signature?, g.Tidy := by
  intro g hg
  cases s with
  | function f =>
    cases hg
    exact h
  | method m =>
    cases hg
    exact h
  | classLike c => cases hg
  | property p => cases hg
  | constant c => cases hg
  | classConstant c => cases hg
  | «variable» v => cases hg

theorem label_normal (h : s.Tidy) : s.normal.label = s.label := by
  cases s with
  | classLike c => rfl
  | function f => exact congrArg ("function " ++ ·) (Signature.Tidy.label_normal h f.name)
  | method m => exact congrArg (_ ++ ·) (Signature.Tidy.label_normal h m.name)
  | property p =>
    simp only [label, normal, PropertyDecl.normal, TypeUnion.Tidy.isEmpty_normal h,
      TypeUnion.Tidy.render_normal h]
  | constant c => rfl
  | classConstant c => rfl
  | «variable» v =>
    simp only [label, normal, VariableDecl.normal, TypeUnion.Tidy.isEmpty_normal h,
      TypeUnion.Tidy.render_normal h]

theorem info_normal (h : s.Tidy) :
    SignatureInfo.ofSymbol? s.normal = SignatureInfo.ofSymbol? s := by
  rw [SignatureInfo.ofSymbol?, SignatureInfo.ofSymbol?, signature?_normal, h.label_normal,
    description?_normal, Option.map_map]
  refine Option.map_congr fun g hg => ?_
  rw [Function.comp_apply, (h.signature g hg).labels_normal]

end Tidy
end Symbol

namespace VariableScope

/-- Whether the types of every variable are tidy. -/
def Tidy (s : VariableScope) : Prop := ∀ e ∈ s.types.entries, e.2.Tidy

theorem tidy_empty (location : Location) : (empty location).Tidy := nofun

namespace Tidy
variable {s : VariableScope}

theorem get? (h : s.Tidy) {name : String} : ∀ u ∈ s.get? name, u.Tidy := fun u hu =>
  h (key name, u) ((OrderedMap.get?_eq_some_iff s.types _ u).1 hu)

theorem getD (h : s.Tidy) (name : String) : ((s.get? name).getD .empty).Tidy := by
  cases hget : s.get? name with
  | none => exact TypeUnion.tidy_empty
  | some u => exact h.get? u hget

theorem bind (h : s.Tidy) (name : String) {types : TypeUnion} (htypes : types.Tidy) :
    (s.bind name types).Tidy := by
  intro e he
  rcases OrderedMap.mem_insertEntry he with rfl | he
  · exact (h.getD name).merge htypes
  · exact h e he

end Tidy

theorem get?_normal (s : VariableScope) (name : String) :
    s.normal.get? name = (s.get? name).map TypeUnion.normal :=
  OrderedMap.get?_mapValues _ s.types _

theorem range?_normal (s : VariableScope) {uri : String} {range : Range}
    (h : s.location = .of uri range) : s.normal.range? = s.range? := by
  rw [range?, range?, normal, h]
  rfl

end VariableScope
end PhpIndex
