import PhpIndex.Proofs.OrderedMap
import PhpIndex.Proofs.Record.ReadBack
import PhpIndex.Record.Document
import PhpIndex.Record.Symbol
import PhpIndex.Symbol.Table

/-!
# Normal forms of records

What a record is read back as. A location without document or range comes back as missing, a
type name as its stored spelling is read, and a union without the alternatives that meet in one
name by that; nothing else changes. Lengths are kept in 32 bits, so a record is read back at all
only if its texts and lists are no longer than that.
Main statement: `ofRecord_toRecord`, for a record that is taken whole.
-/
namespace PhpIndex

/-! ## What fits into a record -/

/-- Whether the length of a text in bytes has 32 bits. -/
def FitsText (s : String) : Prop := (Bytes.ofText s).length < UInt32.size

instance : DecidablePred FitsText := fun _ => inferInstanceAs (Decidable (_ < _))

/-- Whether the length of a list has 32 bits and its items fit. -/
def FitsList (fits : α → Prop) (items : List α) : Prop :=
  items.length < UInt32.size ∧ ∀ a ∈ items, fits a

instance (fits : α → Prop) [DecidablePred fits] : DecidablePred (FitsList fits) := fun _ =>
  inferInstanceAs (Decidable (_ ∧ _))

def FitsOption (fits : α → Prop) (o : Option α) : Prop := ∀ a ∈ o, fits a

instance (fits : α → Prop) [DecidablePred fits] : DecidablePred (FitsOption fits) := fun o =>
  inferInstanceAs (Decidable (∀ a ∈ o, fits a))

def FitsMap [Ord κ] (fitsKey : κ → Prop) (fitsValue : ν → Prop) (m : OrderedMap κ ν) : Prop :=
  FitsList (fun e => fitsKey e.1 ∧ fitsValue e.2) m.entries

instance [Ord κ] (fitsKey : κ → Prop) (fitsValue : ν → Prop) [DecidablePred fitsKey]
    [DecidablePred fitsValue] : DecidablePred (FitsMap fitsKey fitsValue) := fun m =>
  inferInstanceAs (Decidable (FitsList _ m.entries))

/-! ## Names, unions and locations -/

/-- The name that the stored spelling of a name is read as. -/
def TypeName.normal (t : TypeName) : TypeName := .ofStored t.toStored

namespace TypeUnion

def normal (u : TypeUnion) : TypeUnion := ofList (u.types.map TypeName.normal)

/-- It is the stored spelling of a name that has to fit. -/
def Fits (u : TypeUnion) : Prop := FitsList (fun t => FitsText t.toStored) u.types

instance : DecidablePred Fits := fun u => inferInstanceAs (Decidable (FitsList _ u.types))

end TypeUnion

namespace Location

def normal (l : Location) : Location := if l.isEmpty then .empty else l

def Fits (l : Location) : Prop := FitsOption FitsText l.uri?

instance : DecidablePred Fits := fun l => inferInstanceAs (Decidable (FitsOption _ l.uri?))

end Location

namespace Reader

theorem takes_typeName {t : TypeName} (h : FitsText t.toStored) :
    Takes typeName (Write.typeName (some t)) (some t.normal) := by
  have hstored : Takes (optional text) (Write.typeName (some t)) (some t.toStored) :=
    takes_optional (f := id) fun s hs => by
      obtain rfl : t.toStored = s := by simpa using hs
      exact takes_text h
  exact hstored.last

theorem length_typeName (t : TypeName) : 1 ≤ (Write.typeName (some t)).length := by
  simp [Write.typeName, Write.optional, Write.bool]

theorem takes_types {u : TypeUnion} (h : u.Fits) : Takes types (Write.types u) u.normal := by
  have hnames := takes_list (f := fun t => some t.normal) h.1 (fun t _ => length_typeName t)
    fun t ht => takes_typeName (h.2 t ht)
  have hmap : (u.types.map fun t => some t.normal).filterMap id =
      u.types.map TypeName.normal := by
    rw [List.filterMap_map]
    exact List.filterMap_eq_map (f := TypeName.normal) ▸ rfl
  have := hnames.last (f := fun names => TypeUnion.ofList (names.filterMap id))
  rwa [hmap] at this

theorem takes_location {l : Location} (h : l.Fits) :
    Takes location (Write.location l) l.normal := by
  rcases l with ⟨uri?, range?⟩
  cases uri? with
  | none => exact (takes_bool false).ending rfl
  | some uri =>
    cases range? with
    | none => exact (takes_bool false).ending rfl
    | some r =>
      simp only [Write.location, List.append_assoc]
      refine (takes_bool true).bind ?_
      refine (takes_text (h uri rfl)).bind ?_
      exact (takes_range r).last

/-- A map is read back with its keys, and each value in its normal form. -/
theorem takes_map [Ord κ] [Std.TransOrd κ] {readKey : Reader κ} {readValue : Reader ν}
    {writeKey : κ → Bytes} {writeValue : ν → Bytes} (normal : ν → ν) {m : OrderedMap κ ν}
    {fitsKey : κ → Prop} {fitsValue : ν → Prop} (h : FitsMap fitsKey fitsValue m)
    (hkey : ∀ k, fitsKey k → Takes readKey (writeKey k) k)
    (hvalue : ∀ v, fitsValue v → Takes readValue (writeValue v) (normal v))
    (hleast : ∀ k v, 8 ≤ (writeKey k ++ writeValue v).length) :
    Takes (map readKey readValue) (Write.map writeKey writeValue m) (m.mapValues normal) := by
  have hentry : ∀ e ∈ m.entries, Takes (do
      let k ← readKey
      let v ← readValue
      pure (k, v)) (writeKey e.1 ++ writeValue e.2) (e.1, normal e.2) := fun e he =>
    (hkey e.1 (h.2 e he).1).bind (hvalue e.2 (h.2 e he).2).last
  have hentries := takes_list h.1 (fun e _ => hleast e.1 e.2) hentry
  have hm : OrderedMap.ofList (m.entries.map fun e => (e.1, normal e.2)) = m.mapValues normal :=
    OrderedMap.ext_entries (OrderedMap.entries_ofList (m.mapValues normal).ascending)
  rw [← hm]
  exact hentries.last

theorem length_types (u : TypeUnion) : 4 ≤ (Write.types u).length := by
  simp [Write.types, Write.list, Write.count]

theorem takes_tag (t : UInt32) : Takes (tag t) (Write.word t) () :=
  (takes_word t).ending (if_pos rfl)

theorem takes_modifiers (m : Modifiers) : Takes modifiers (Write.word m.toBits) m := by
  refine (takes_word m.toBits).ending ?_
  rw [Modifiers.ofBits?_toBits]

theorem takes_visibility (v : Visibility) : Takes visibility (Write.word v.toBits) v := by
  refine (takes_word v.toBits).ending ?_
  rw [Visibility.ofBits?_toBits]

end Reader

/-! ## Whole records -/

/-- What the reader of a format takes whole is what its record is read back as. -/
theorem ofRecord_toRecord [RecordFormat α] {a b : α}
    (h : Reader.Takes RecordFormat.read (RecordFormat.write a) b) :
    ofRecord (toRecord a) = .ok b := by
  have hread := h []
  have hfinish : Reader.finish.run [] = (.ok (), []) := rfl
  rw [List.append_nil] at hread
  simp only [ofRecord, toRecord]
  rw [Reader.run_bind_ok hread, Reader.run_bind_ok hfinish]
  rfl

/-- Bytes behind a record are refused. -/
theorem ofRecord_append [RecordFormat α] {a b : α}
    (h : Reader.Takes RecordFormat.read (RecordFormat.write a) b) {rest : Bytes} {n : Nat}
    (hlength : rest.length = n + 1) :
    ofRecord (α := α) (toRecord a ++ rest) = .error (.trailingBytes (n + 1)) := by
  have hfinish : Reader.finish.run rest = (.error (.trailingBytes (n + 1)), rest) := by
    have hremaining : Reader.remaining.run rest = (.ok (n + 1), rest) := by
      rw [← hlength]
      rfl
    rw [Reader.finish, Reader.run_bind_ok hremaining]
    rfl
  simp only [ofRecord, toRecord]
  rw [Reader.run_bind_ok (h rest), Reader.run_bind_error hfinish]

namespace Parameter

def normal (p : Parameter) : Parameter :=
  { p with types := p.types.normal, location := p.location.normal }

def Fits (p : Parameter) : Prop :=
  FitsText p.name ∧ p.types.Fits ∧ FitsOption FitsText p.default? ∧ p.location.Fits

instance : DecidablePred Fits := fun _ => inferInstanceAs (Decidable (_ ∧ _))

end Parameter

namespace Signature

def normal (s : Signature) : Signature := ⟨s.parameters.map Parameter.normal, s.returnTypes.normal⟩

def Fits (s : Signature) : Prop := FitsList Parameter.Fits s.parameters ∧ s.returnTypes.Fits

instance : DecidablePred Fits := fun _ => inferInstanceAs (Decidable (_ ∧ _))

end Signature

namespace ClassDecl

def normal (c : ClassDecl) : ClassDecl := { c with location := c.location.normal }

def Fits (c : ClassDecl) : Prop :=
  FitsText c.name ∧ c.location.Fits ∧ FitsList FitsText c.parents ∧
    FitsList FitsText c.interfaces ∧ FitsList FitsText c.traits ∧
    FitsOption FitsText c.description?

instance : DecidablePred Fits := fun _ => inferInstanceAs (Decidable (_ ∧ _))

end ClassDecl

namespace FunctionDecl

def normal (f : FunctionDecl) : FunctionDecl :=
  { f with location := f.location.normal, signature := f.signature.normal }

def Fits (f : FunctionDecl) : Prop :=
  FitsText f.name ∧ f.location.Fits ∧ f.signature.Fits ∧ FitsOption FitsText f.description?

instance : DecidablePred Fits := fun _ => inferInstanceAs (Decidable (_ ∧ _))

end FunctionDecl

namespace MethodDecl

def normal (m : MethodDecl) : MethodDecl :=
  { m with location := m.location.normal, signature := m.signature.normal }

def Fits (m : MethodDecl) : Prop :=
  FitsText m.name ∧ FitsText m.scope ∧ m.location.Fits ∧ m.signature.Fits ∧
    FitsOption FitsText m.description?

instance : DecidablePred Fits := fun _ => inferInstanceAs (Decidable (_ ∧ _))

end MethodDecl

namespace PropertyDecl

def normal (p : PropertyDecl) : PropertyDecl :=
  { p with location := p.location.normal, types := p.types.normal }

def Fits (p : PropertyDecl) : Prop :=
  FitsText p.name ∧ FitsText p.scope ∧ p.location.Fits ∧ p.types.Fits ∧
    FitsOption FitsText p.description?

instance : DecidablePred Fits := fun _ => inferInstanceAs (Decidable (_ ∧ _))

end PropertyDecl

namespace ConstantDecl

def normal (c : ConstantDecl) : ConstantDecl :=
  { c with location := c.location.normal, types := c.types.normal }

def Fits (c : ConstantDecl) : Prop :=
  FitsText c.name ∧ c.location.Fits ∧ FitsOption FitsText c.value? ∧ c.types.Fits ∧
    FitsOption FitsText c.description?

instance : DecidablePred Fits := fun _ => inferInstanceAs (Decidable (_ ∧ _))

end ConstantDecl

namespace ClassConstantDecl

def normal (c : ClassConstantDecl) : ClassConstantDecl :=
  { c with location := c.location.normal, types := c.types.normal }

def Fits (c : ClassConstantDecl) : Prop :=
  FitsText c.name ∧ FitsText c.scope ∧ c.location.Fits ∧ FitsOption FitsText c.value? ∧
    c.types.Fits ∧ FitsOption FitsText c.description?

instance : DecidablePred Fits := fun _ => inferInstanceAs (Decidable (_ ∧ _))

end ClassConstantDecl

namespace VariableDecl

def normal (v : VariableDecl) : VariableDecl :=
  { v with location := v.location.normal, types := v.types.normal }

def Fits (v : VariableDecl) : Prop := FitsText v.name ∧ v.location.Fits ∧ v.types.Fits

instance : DecidablePred Fits := fun _ => inferInstanceAs (Decidable (_ ∧ _))

end VariableDecl

namespace Symbol

def normal : Symbol → Symbol
  | .classLike c => .classLike c.normal
  | .function f => .function f.normal
  | .method m => .method m.normal
  | .property p => .property p.normal
  | .constant c => .constant c.normal
  | .classConstant c => .classConstant c.normal
  | .variable v => .variable v.normal

def Fits : Symbol → Prop
  | .classLike c => c.Fits
  | .function f => f.Fits
  | .method m => m.Fits
  | .property p => p.Fits
  | .constant c => c.Fits
  | .classConstant c => c.Fits
  | .variable v => v.Fits

instance : DecidablePred Fits
  | .classLike c => inferInstanceAs (Decidable c.Fits)
  | .function f => inferInstanceAs (Decidable f.Fits)
  | .method m => inferInstanceAs (Decidable m.Fits)
  | .property p => inferInstanceAs (Decidable p.Fits)
  | .constant c => inferInstanceAs (Decidable c.Fits)
  | .classConstant c => inferInstanceAs (Decidable c.Fits)
  | .variable v => inferInstanceAs (Decidable v.Fits)

@[simp] theorem name_normal (s : Symbol) : s.normal.name = s.name := by cases s <;> rfl

@[simp] theorem scope?_normal (s : Symbol) : s.normal.scope? = s.scope? := by cases s <;> rfl

@[simp] theorem table?_normal (s : Symbol) : s.normal.table? = s.table? := by cases s <;> rfl

@[simp] theorem location_normal (s : Symbol) : s.normal.location = s.location.normal := by
  cases s <;> rfl

@[simp] theorem indexName_normal (s : Symbol) : s.normal.indexName = s.indexName := by
  cases s <;> rfl

@[simp] theorem completionWord_normal (s : Symbol) :
    s.normal.completionWord = s.completionWord := by
  cases s <;> rfl

end Symbol

namespace Reference

def normal (r : Reference) : Reference :=
  { r with types := r.types.normal, location := r.location.normal,
           scope? := r.scope?.map TypeUnion.normal }

def Fits (r : Reference) : Prop :=
  r.types.Fits ∧ r.location.Fits ∧ FitsOption TypeUnion.Fits r.scope? ∧
    r.arguments.length < UInt32.size

instance : DecidablePred Fits := fun _ => inferInstanceAs (Decidable (_ ∧ _))

end Reference

namespace VariableScope

def normal (s : VariableScope) : VariableScope :=
  ⟨s.location.normal, s.types.mapValues TypeUnion.normal⟩

def Fits (s : VariableScope) : Prop := s.location.Fits ∧ FitsMap FitsText TypeUnion.Fits s.types

instance : DecidablePred Fits := fun _ => inferInstanceAs (Decidable (_ ∧ _))

end VariableScope

namespace Imports

def Fits (t : Imports) : Prop :=
  FitsList FitsText t.segments ∧ FitsMap FitsText FitsText t.classes ∧
    FitsMap FitsText FitsText t.functions ∧ FitsMap FitsText FitsText t.constants

instance : DecidablePred Fits := fun _ => inferInstanceAs (Decidable (_ ∧ _))

end Imports

namespace DocumentRecord

def normal (d : DocumentRecord) : DocumentRecord := { d with globals := d.globals.normal }

def Fits (d : DocumentRecord) : Prop :=
  FitsText d.uri ∧ FitsText d.contentHash ∧ d.imports.Fits ∧ d.globals.Fits

instance : DecidablePred Fits := fun _ => inferInstanceAs (Decidable (_ ∧ _))

end DocumentRecord
end PhpIndex
