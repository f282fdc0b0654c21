import PhpIndex.Proofs.Name.Normal
import PhpIndex.Proofs.Record.RoundTrip

/-!
# Records that storing does not change

Reading undoes writing up to the normal form, for every kind of record and whatever follows it.
A record is its own normal form if its locations are full or empty, its unions have no two
alternatives of one name, and each of its type names is spelled and marked as names are read: a
class by an absolute name, a built-in type in its canonical spelling, or a relative name that is
neither a built-in type nor begins with a separator.
Main statement: `records_read_back`.
-/
namespace PhpIndex

namespace TypeName

/-- Whether storing changes nothing of the name. -/
def Fixed (t : TypeName) : Prop :=
  if t.absolute then t.isBuiltin = false ∨ t.name ∈ builtinTypes
  else t.name ∉ builtinTypes ∧ Text.startsWith "\\" t.name = false

instance : DecidablePred Fixed := fun t =>
  inferInstanceAs (Decidable (if t.absolute then _ else _))

/-- These names and no others are read back as they were written. -/
theorem normal_eq_self_iff {t : TypeName} : t.normal = t ↔ t.Fixed := by
  obtain ⟨name, absolute⟩ := t
  cases absolute with
  | true =>
    rw [Fixed, if_pos rfl]
    cases hbuiltin : isBuiltin ⟨name, true⟩ with
    | true => simp [normal_of_isBuiltin hbuiltin]
    | false => simp [normal_of_not_isBuiltin (.inl rfl) hbuiltin]
  | false =>
    have hstored : normal ⟨name, false⟩ = ofStored name := by
      simp [normal, toStored]
    rw [Fixed, if_neg (by simp), hstored]
    cases hlead : Text.startsWith "\\" name with
    | true =>
      obtain ⟨rest, hrest⟩ : ∃ rest, Text.afterLead? "\\" name = some rest := by
        refine Option.ne_none_iff_exists'.1 fun hnone => ?_
        rw [Text.afterLead?_eq_none.1 hnone] at hlead
        cases hlead
      simp [ofStored, hrest]
    | false => simp [ofStored_of_not_startsWith hlead]

end TypeName

namespace Location

/-- Whether both parts of the location are there, or none. -/
def Whole (l : Location) : Prop := l = .empty ∨ l.isEmpty = false

instance : DecidablePred Whole := fun _ => inferInstanceAs (Decidable (_ ∨ _))

theorem Whole.normal {l : Location} (h : l.Whole) : l.normal = l := by
  rcases h with rfl | h
  · rfl
  · simp [Location.normal, h]

end Location

namespace TypeUnion

structure Fixed (u : TypeUnion) : Prop where
  types : ∀ t ∈ u.types, t.Fixed
  nodup : u.names.Nodup

instance : DecidablePred Fixed := fun u =>
  decidable_of_iff ((∀ t ∈ u.types, t.Fixed) ∧ u.names.Nodup)
    ⟨fun h => ⟨h.1, h.2⟩, fun h => ⟨h.types, h.nodup⟩⟩

theorem Fixed.normal {u : TypeUnion} (h : u.Fixed) : u.normal = u := by
  have hmap : u.types.map TypeName.normal = u.types :=
    (List.map_congr_left fun t ht => TypeName.normal_eq_self_iff.2 (h.types t ht)).trans
      (List.map_id _)
  have hnodup : ((empty.types ++ u.types).map TypeName.name).Nodup := h.nodup
  have htypes : u.normal.types = u.types := by
    rw [TypeUnion.normal, hmap, ofList, types_foldl_push hnodup]
    rfl
  exact congrArg TypeUnion.mk htypes

end TypeUnion

namespace Parameter

structure Fixed (p : Parameter) : Prop where
  types : p.types.Fixed
  location : p.location.Whole

instance : DecidablePred Fixed := fun p =>
  decidable_of_iff (p.types.Fixed ∧ p.location.Whole)
    ⟨fun h => ⟨h.1, h.2⟩, fun h => ⟨h.types, h.location⟩⟩

theorem Fixed.normal {p : Parameter} (h : p.Fixed) : p.normal = p := by
  rw [Parameter.normal, h.types.normal, h.location.normal]

end Parameter

namespace Signature

structure Fixed (s : Signature) : Prop where
  parameters : ∀ p ∈ s.parameters, p.Fixed
  returnTypes : s.returnTypes.Fixed

instance : DecidablePred Fixed := fun s =>
  decidable_of_iff ((∀ p ∈ s.parameters, p.Fixed) ∧ s.returnTypes.Fixed)
    ⟨fun h => ⟨h.1, h.2⟩, fun h => ⟨h.parameters, h.returnTypes⟩⟩

theorem Fixed.normal {s : Signature} (h : s.Fixed) : s.normal = s := by
  have hmap : s.parameters.map Parameter.normal = s.parameters :=
    (List.map_congr_left fun p hp => (h.parameters p hp).normal).trans (List.map_id _)
  rw [Signature.normal, h.returnTypes.normal, hmap]

end Signature

namespace Symbol

/-- Whether storing changes nothing of the symbol: what it has of a location, a signature and
types. -/
structure Fixed (s : Symbol) : Prop where
  location : s.location.Whole
  signature : ∀ g ∈ s.signature?, g.Fixed
  types : ∀ u ∈ s.valueTypes?, u.Fixed

instance : DecidablePred Fixed := fun s =>
  decidable_of_iff (s.location.Whole ∧ (∀ g ∈ s.signature?, g.Fixed) ∧ ∀ u ∈ s.valueTypes?, u.Fixed)
    ⟨fun h => ⟨h.1, h.2.1, h.2.2⟩, fun h => ⟨h.location, h.signature, h.types⟩⟩

theorem Fixed.normal {s : Symbol} (h : s.Fixed) : s.normal = s := by
  obtain ⟨hlocation, hsignature, htypes⟩ := h
  cases s with
  | classLike c =>
    have hl : c.location.normal = c.location := hlocation.normal
    rw [Symbol.normal, ClassDecl.normal, hl]
  | function f =>
    have hl : f.location.normal = f.location := hlocation.normal
    rw [Symbol.normal, FunctionDecl.normal, hl, (hsignature f.signature rfl).normal]
  | method m =>
    have hl : m.location.normal = m.location := hlocation.normal
    rw [Symbol.normal, MethodDecl.normal, hl, (hsignature m.signature rfl).normal]
  | property p =>
    have hl : p.location.normal = p.location := hlocation.normal
    rw [Symbol.normal, PropertyDecl.normal, hl, (htypes p.types rfl).normal]
  | constant c =>
    have hl : c.location.normal = c.location := hlocation.normal
    rw [Symbol.normal, ConstantDecl.normal, hl, (htypes c.types rfl).normal]
  | classConstant c =>
    have hl : c.location.normal = c.location := hlocation.normal
    rw [Symbol.normal, ClassConstantDecl.normal, hl, (htypes c.types rfl).normal]
  | «variable» v =>
    have hl : v.location.normal = v.location := hlocation.normal
    rw [Symbol.normal, VariableDecl.normal, hl, (htypes v.types rfl).normal]

end Symbol

namespace Reference

structure Fixed (r : Reference) : Prop where
  types : r.types.Fixed
  location : r.location.Whole
  scope : ∀ u ∈ r.scope?, u.Fixed

theorem Fixed.normal {r : Reference} (h : r.Fixed) : r.normal = r := by
  have hscope : r.scope?.map TypeUnion.normal = r.scope? := by
    cases hs : r.scope? with
    | none => rfl
    | some u => rw [Option.map_some, (h.scope u hs).normal]
  rw [Reference.normal, h.types.normal, h.location.normal, hscope]

end Reference

namespace VariableScope

structure Fixed (s : VariableScope) : Prop where
  location : s.location.Whole
  types : ∀ e ∈ s.types.entries, e.2.Fixed

theorem Fixed.normal {s : VariableScope} (h : s.Fixed) : s.normal = s := by
  have hentries : s.types.entries.map (fun e => (e.1, e.2.normal)) = s.types.entries :=
    (List.map_congr_left fun e he => by rw [(h.types e he).normal]; rfl).trans (List.map_id _)
  have htypes : s.types.mapValues TypeUnion.normal = s.types := OrderedMap.ext_entries hentries
  rw [VariableScope.normal, h.location.normal, htypes]

end VariableScope

/-- What reading makes of written values of a type, and which of them it leaves as they are. -/
structure ReadBack (α : Type) [RecordFormat α] (fits fixed : α → Prop) (normal : α → α) :
    Prop where
  /-- The value is read in its normal form, and exactly what follows it is left. -/
  run : ∀ a, fits a → ∀ rest, RecordFormat.read.run (toRecord a ++ rest) = (.ok (normal a), rest)
  normal_fixed : ∀ a, fixed a → normal a = a

theorem ReadBack.of_takes [RecordFormat α] {fits fixed : α → Prop} {normal : α → α}
    (htakes : ∀ a, fits a → Reader.Takes RecordFormat.read (RecordFormat.write a) (normal a))
    (hfixed : ∀ a, fixed a → normal a = a) : ReadBack α fits fixed normal :=
  ⟨htakes, hfixed⟩

/-- Reading undoes writing up to the normal form, in every format of the library. Texts and lists
have lengths of 32 bits, where a type name counts with the mark that it is written with. -/
theorem records_read_back :
    ReadBack Symbol Symbol.Fits Symbol.Fixed Symbol.normal ∧
    ReadBack Reference Reference.Fits Reference.Fixed Reference.normal ∧
    ReadBack VariableScope VariableScope.Fits VariableScope.Fixed VariableScope.normal ∧
    ReadBack Imports Imports.Fits (fun _ => True) id ∧
    ReadBack DocumentRecord DocumentRecord.Fits (fun d => d.globals.Fixed) DocumentRecord.normal ∧
    ReadBack CompletionEntry (fun e => FitsText e.uri ∧ FitsText e.name) (fun _ => True) id ∧
    ReadBack Parameter Parameter.Fits Parameter.Fixed Parameter.normal ∧
    ReadBack Signature Signature.Fits Signature.Fixed Signature.normal := by
  refine ⟨?symbol, ?reference, ?scope, ?imports, ?document, ?completion, ?parameter, ?signature⟩
  case symbol => exact .of_takes (fun s h => takes_symbol h) fun s h => h.normal
  case reference => exact .of_takes (fun r h => takes_reference h) fun r h => h.normal
  case scope => exact .of_takes (fun s h => takes_variableScope h) fun s h => h.normal
  case imports => exact .of_takes (fun t h => takes_imports h) fun t _ => rfl
  case document =>
    exact .of_takes (fun d h => takes_document h) fun d h => by rw [DocumentRecord.normal, h.normal]
  case completion => exact .of_takes (fun e h => takes_completion h.1 h.2) fun e _ => rfl
  case parameter => exact .of_takes (fun p h => takes_parameter h) fun p h => h.normal
  case signature => exact .of_takes (fun s h => takes_signature h) fun s h => h.normal

/-- A method with one parameter of these types, at this location. -/
def unary (types : List TypeName) (location : Location) : Symbol :=
  .method ⟨"m", "C", .of "a" ⟨0, 9⟩, {}, ⟨true, false, false⟩,
    ⟨[{ name := "x", types := ⟨types⟩, location }], ⟨[⟨"int", true⟩]⟩⟩, none⟩

/-- One class under two spellings, a built-in type in capitals and a location without a range. -/
theorem records_read_back_unary :
    RecordFormat.read.run (toRecord (unary [⟨"Foo", true⟩, ⟨"INT", true⟩, ⟨"\\Foo", false⟩]
      ⟨some "a", none⟩) ++ [0]) = (.ok (unary [⟨"Foo", true⟩, ⟨"INT", false⟩] .empty), [0]) ∧
    (unary [⟨"Foo", true⟩, ⟨"int", true⟩] .empty).normal =
      unary [⟨"Foo", true⟩, ⟨"int", true⟩] .empty := by
  have hnormal : (unary [⟨"Foo", true⟩, ⟨"INT", true⟩, ⟨"\\Foo", false⟩] ⟨some "a", none⟩).normal =
      unary [⟨"Foo", true⟩, ⟨"INT", false⟩] .empty := by
    decide
  have hrun := records_read_back.1.run (unary [⟨"Foo", true⟩, ⟨"INT", true⟩, ⟨"\\Foo", false⟩]
    ⟨some "a", none⟩) (by decide) [0]
  rw [hnormal] at hrun
  exact ⟨hrun, records_read_back.1.normal_fixed _ (by decide)⟩

end PhpIndex
