import PhpIndex.Proofs.Record.RoundTrip

/-!
# Records delimit themselves

A reader is steady if bytes added behind its input change nothing of what it reads, unless the
input ended too early for it. Every reader of the formats is steady, the guards on the counts of
lists included, so that of a record cut short nothing is read: the bytes that were cut off would
have been left over. With the tag at its front, a record is neither cut, nor followed by more, nor
taken for one of another kind without an error that says so.
Main statement: `record_delimits_itself`.
-/
namespace PhpIndex
namespace Reader

/-- The input ended before what was to be read. -/
def EndsEarly (answer : Except FormatError α) : Prop :=
  ∃ needed left, answer = .error (.unexpectedEnd needed left) ∧ left < needed

/-- Whether more input is left unread and changes nothing, if the input does not end early. -/
def Steady (r : Reader α) : Prop :=
  ∀ front more, EndsEarly (r.run front).1 ∨
    r.run (front ++ more) = ((r.run front).1, (r.run front).2 ++ more)

section Primitives

theorem Steady.pure (a : α) : Steady (Pure.pure a) := fun _ _ => .inr rfl

theorem Steady.fail (e : FormatError) : Steady (Reader.fail e : Reader α) := fun _ _ => .inr rfl

theorem Steady.bind {r : Reader α} {next : α → Reader β} (h : Steady r)
    (hnext : ∀ a, Steady (next a)) : Steady (r >>= next) := by
  intro front more
  rcases hrun : r.run front with ⟨answer, left⟩
  have hr := h front more
  rw [hrun] at hr
  cases answer with
  | error e =>
    rw [run_bind_error hrun]
    rcases hr with ⟨needed, remains, he, hlt⟩ | hmore
    · cases he
      exact .inl ⟨needed, remains, rfl, hlt⟩
    · exact .inr (run_bind_error hmore)
  | ok a =>
    rw [run_bind_ok hrun]
    rcases hr with ⟨_, _, he, _⟩ | hmore
    · cases he
    · rw [run_bind_ok hmore]
      exact hnext a left more

theorem Steady.map {r : Reader α} (f : α → β) (h : Steady r) : Steady (f <$> r) :=
  h.bind fun a => .pure (f a)

theorem Steady.ite {p : Prop} [Decidable p] {r s : Reader α} (hr : Steady r) (hs : Steady s) :
    Steady (if p then r else s) := by
  split
  · exact hr
  · exact hs

theorem steady_take (n : Nat) : Steady (take n) := by
  intro front more
  by_cases hshort : front.length < n
  · exact .inl ⟨n, front.length, by simp only [run, take, if_pos hshort], hshort⟩
  · have hlong : ¬ (front ++ more).length < n := by
      rw [List.length_append]
      omega
    have hle : n ≤ front.length := Nat.le_of_not_lt hshort
    refine .inr ?_
    simp only [run, take, if_neg hshort, if_neg hlong, List.take_append_of_le_length hle,
      List.drop_append_of_le_length hle]

/-- The guard asks how much is left, and more input can only let it pass. -/
theorem steady_count (least : Nat) : Steady (count least) := by
  refine Steady.bind ?word fun n => ?guard
  case word =>
    refine (steady_take 4).bind fun bytes => ?_
    split <;> exact .pure _
  intro front more
  simp only [run_bind_ok (rfl : remaining.run _ = _), List.length_append]
  by_cases hshort : front.length < n.toNat * least
  · exact .inl ⟨_, _, by rw [if_pos hshort]; rfl, hshort⟩
  · have hlong : ¬ front.length + more.length < n.toNat * least := by omega
    rw [if_neg hshort, if_neg hlong]
    exact .inr rfl

end Primitives

section Fields

theorem steady_word : Steady word := by
  refine (steady_take 4).bind fun bytes => ?_
  split <;> exact .pure _

theorem steady_time : Steady time := by
  refine (steady_take 8).bind fun bytes => ?_
  split <;> exact .pure _

theorem steady_bool : Steady bool := by
  refine (steady_take 1).bind fun bytes => ?_
  split
  · exact .pure _
  · exact .pure _
  · exact .fail _

theorem steady_text : Steady text := by
  refine steady_word.bind fun length => (steady_take _).bind fun bytes => ?_
  split
  · exact .pure _
  · exact .fail _

theorem steady_optional {read : Reader α} (h : Steady read) : Steady (optional read) :=
  steady_bool.bind fun _ => .ite (h.bind fun a => .pure (some a)) (.pure none)

theorem steady_many {read : Reader α} (h : Steady read) (n : Nat) : Steady (many read n) := by
  induction n with
  | zero => exact .pure []
  | succ n ih => exact h.bind fun a => ih.bind fun rest => .pure (a :: rest)

theorem steady_list {read : Reader α} (least : Nat) (h : Steady read) :
    Steady (list least read) := (steady_count least).bind fun n => steady_many h n

theorem steady_texts : Steady texts := steady_list 4 steady_text

theorem steady_types : Steady types :=
  (steady_list 1 ((steady_optional steady_text).bind fun _ => .pure _)).bind fun _ => .pure _

theorem steady_range : Steady range :=
  steady_word.bind fun _ => steady_word.bind fun _ => .pure _

theorem steady_location : Steady location :=
  steady_bool.bind fun _ =>
    .ite (steady_text.bind fun _ => steady_range.bind fun _ => .pure _) (.pure _)

theorem steady_map [Ord κ] [Std.TransOrd κ] {readKey : Reader κ} {readValue : Reader ν}
    (hkey : Steady readKey) (hvalue : Steady readValue) : Steady (map readKey readValue) :=
  (steady_list 8 (hkey.bind fun _ => hvalue.bind fun _ => .pure _)).bind fun _ => .pure _

theorem steady_textMap : Steady (map text text) := steady_map steady_text steady_text

theorem steady_tag (expected : UInt32) : Steady (tag expected) :=
  steady_word.bind fun _ => .ite (.pure ()) (.fail _)

theorem steady_modifiers : Steady modifiers := by
  refine steady_word.bind fun bits => ?_
  split
  · exact .pure _
  · exact .fail _

theorem steady_visibility : Steady visibility := by
  refine steady_word.bind fun bits => ?_
  split
  · exact .pure _
  · exact .fail _

end Fields

section Records

theorem steady_parameter : Steady (RecordFormat.read : Reader Parameter) := by
  refine steady_text.bind fun name => steady_types.bind fun types => ?_
  refine (steady_optional steady_text).bind fun default? => ?_
  refine steady_bool.bind fun byReference => steady_bool.bind fun variadic => ?_
  exact steady_location.bind fun location => .pure _

theorem steady_signature : Steady (RecordFormat.read : Reader Signature) :=
  (steady_list 4 steady_parameter).bind fun _ => steady_types.bind fun _ => .pure _

theorem steady_classDecl (sort : ClassSort) : Steady (classDecl sort) := by
  refine steady_text.bind fun name => steady_location.bind fun location => ?_
  refine steady_modifiers.bind fun modifiers => steady_visibility.bind fun _ => ?_
  refine steady_texts.bind fun parents => steady_texts.bind fun interfaces => ?_
  refine steady_texts.bind fun traits => ?_
  exact (steady_optional steady_text).bind fun description? => .pure _

theorem steady_functionDecl : Steady functionDecl := by
  refine steady_text.bind fun name => steady_location.bind fun location => ?_
  refine steady_signature.bind fun signature => ?_
  exact (steady_optional steady_text).bind fun description? => .pure _

theorem steady_methodDecl : Steady methodDecl := by
  refine steady_text.bind fun name => steady_text.bind fun scope => ?_
  refine steady_location.bind fun location => steady_modifiers.bind fun modifiers => ?_
  refine steady_visibility.bind fun visibility => steady_signature.bind fun signature => ?_
  exact (steady_optional steady_text).bind fun description? => .pure _

theorem steady_propertyDecl : Steady propertyDecl := by
  refine steady_text.bind fun name => steady_text.bind fun scope => ?_
  refine steady_location.bind fun location => steady_modifiers.bind fun modifiers => ?_
  refine steady_visibility.bind fun visibility => steady_types.bind fun types => ?_
  exact (steady_optional steady_text).bind fun description? => .pure _

theorem steady_constantDecl (viaDefine : Bool) : Steady (constantDecl viaDefine) := by
  refine steady_text.bind fun name => steady_location.bind fun location => ?_
  refine (steady_optional steady_text).bind fun value? => steady_types.bind fun types => ?_
  exact (steady_optional steady_text).bind fun description? => .pure _

theorem steady_classConstantDecl : Steady classConstantDecl := by
  refine steady_text.bind fun name => steady_text.bind fun scope => ?_
  refine steady_location.bind fun location => steady_modifiers.bind fun _ => ?_
  refine steady_visibility.bind fun visibility => ?_
  refine (steady_optional steady_text).bind fun value? => steady_types.bind fun types => ?_
  exact (steady_optional steady_text).bind fun description? => .pure _

theorem steady_variableDecl : Steady variableDecl :=
  steady_text.bind fun _ => steady_location.bind fun _ => steady_types.bind fun _ => .pure _

theorem steady_symbol : Steady (RecordFormat.read : Reader Symbol) := by
  refine steady_word.bind fun tag => ?_
  refine .ite ((steady_classDecl .class).map _) ?_
  refine .ite ((steady_classDecl .interface).map _) ?_
  refine .ite ((steady_classDecl .trait).map _) ?_
  refine .ite (steady_functionDecl.map _) ?_
  refine .ite (steady_methodDecl.map _) ?_
  refine .ite (steady_propertyDecl.map _) ?_
  refine .ite ((steady_constantDecl false).map _) ?_
  refine .ite ((steady_constantDecl true).map _) ?_
  refine .ite (steady_classConstantDecl.map _) ?_
  exact .ite (steady_variableDecl.map _) (.fail _)

theorem steady_reference : Steady (RecordFormat.read : Reader Reference) := by
  refine (steady_tag _).bind fun _ => steady_word.bind fun code => ?_
  split
  · exact .fail _
  · refine steady_types.bind fun types => steady_location.bind fun location => ?_
    refine (steady_optional steady_types).bind fun scope? => ?_
    refine (steady_optional steady_range).bind fun scopeRange? => ?_
    refine (steady_optional steady_range).bind fun memberRange? => ?_
    exact (steady_list 8 steady_range).bind fun arguments => .pure _

theorem steady_variableScope : Steady (RecordFormat.read : Reader VariableScope) :=
  (steady_tag _).bind fun _ => steady_location.bind fun _ =>
    (steady_map steady_text steady_types).bind fun _ => .pure _

theorem steady_imports : Steady (RecordFormat.read : Reader Imports) := by
  refine (steady_tag _).bind fun _ => steady_texts.bind fun segments => ?_
  refine steady_textMap.bind fun classes => steady_textMap.bind fun functions => ?_
  exact steady_textMap.bind fun constants => .pure _

theorem steady_document : Steady (RecordFormat.read : Reader DocumentRecord) := by
  refine (steady_tag _).bind fun _ => steady_text.bind fun uri => ?_
  refine steady_time.bind fun modified => steady_text.bind fun contentHash => ?_
  refine steady_time.bind fun indexedAt => steady_imports.bind fun imports => ?_
  exact steady_variableScope.bind fun globals => .pure _

theorem steady_completion : Steady (RecordFormat.read : Reader CompletionEntry) :=
  (steady_tag _).bind fun _ => steady_text.bind fun _ => steady_text.bind fun _ => .pure _

end Records
end Reader

/-- A steady reader that takes the whole of a record finds the record cut short too early. -/
theorem ofRecord_cut [RecordFormat α] {a b : α}
    (hsteady : Reader.Steady (RecordFormat.read : Reader α))
    (htakes : Reader.Takes RecordFormat.read (RecordFormat.write a) b) {front cut : Bytes}
    (hcut : cut ≠ []) (happend : toRecord a = front ++ cut) :
    Reader.EndsEarly (ofRecord (α := α) front) := by
  rcases hrun : (RecordFormat.read : Reader α).run front with ⟨answer, left⟩
  rcases hsteady front cut with ⟨needed, remains, he, hlt⟩ | hmore
  · rw [hrun] at he
    obtain rfl : answer = _ := he
    exact ⟨needed, remains, congrArg Prod.fst (Reader.run_bind_error hrun), hlt⟩
  · have hwhole := htakes []
    rw [List.append_nil] at hwhole
    have hleft : left ++ cut = [] := by
      rw [← toRecord, happend, hmore, hrun] at hwhole
      exact congrArg Prod.snd hwhole
    exact absurd (List.append_eq_nil_iff.1 hleft).2 hcut

/-! ## The kinds of records -/

/-- The tag in front of the symbol's record. -/
def Symbol.tag : Symbol → UInt32
  | .classLike c => Tag.ofClass c.sort
  | .function _ => Tag.function
  | .method _ => Tag.method
  | .property _ => Tag.property
  | .constant c => c.tag
  | .classConstant _ => Tag.classConstant
  | .variable _ => Tag.localVariable

/-- The types with a record format. -/
inductive RecordKind where
  | symbol
  | reference
  | variableScope
  | imports
  | document
  | completion
  | parameter
  | signature
  deriving DecidableEq

namespace RecordKind

def Carrier : RecordKind → Type
  | symbol => Symbol
  | reference => Reference
  | variableScope => VariableScope
  | imports => Imports
  | document => DocumentRecord
  | completion => CompletionEntry
  | parameter => Parameter
  | signature => Signature

instance : (k : RecordKind) → RecordFormat k.Carrier
  | symbol => inferInstanceAs (RecordFormat Symbol)
  | reference => inferInstanceAs (RecordFormat Reference)
  | variableScope => inferInstanceAs (RecordFormat VariableScope)
  | imports => inferInstanceAs (RecordFormat Imports)
  | document => inferInstanceAs (RecordFormat DocumentRecord)
  | completion => inferInstanceAs (RecordFormat CompletionEntry)
  | parameter => inferInstanceAs (RecordFormat Parameter)
  | signature => inferInstanceAs (RecordFormat Signature)

def Fits : (k : RecordKind) → k.Carrier → Prop
  | symbol => Symbol.Fits
  | reference => Reference.Fits
  | variableScope => VariableScope.Fits
  | imports => Imports.Fits
  | document => DocumentRecord.Fits
  | completion => fun e => FitsText e.uri ∧ FitsText e.name
  | parameter => Parameter.Fits
  | signature => Signature.Fits

/-- The tags in front of the kind's records; parts of records have none. -/
def tags : RecordKind → List UInt32
  | symbol => [Tag.ofClass .class, Tag.ofClass .interface, Tag.ofClass .trait, Tag.function,
      Tag.method, Tag.property, Tag.constant, Tag.defineConstant, Tag.classConstant,
      Tag.localVariable]
  | reference => [Tag.reference]
  | variableScope => [Tag.variableScope]
  | imports => [Tag.imports]
  | document => [Tag.document]
  | completion => [Tag.completion]
  | parameter => []
  | signature => []

theorem tags_disjoint {k other : RecordKind} (h : other ≠ k) {t : UInt32} (ht : t ∈ k.tags) :
    t ∉ other.tags := by
  have hall : (k.tags.all fun t => !other.tags.contains t) = true := by
    cases k <;> cases other <;> first | exact absurd rfl h | rfl
  have hnot := List.all_eq_true.1 hall t ht
  rwa [Bool.not_eq_true', List.contains_eq_mem, decide_eq_false_iff_not] at hnot

end RecordKind

namespace Symbol

theorem tag_mem_tags (s : Symbol) : s.tag ∈ RecordKind.symbol.tags := by
  cases s with
  | classLike c =>
    have hsort : ∀ sort, Tag.ofClass sort ∈ RecordKind.symbol.tags := by
      rintro (_ | _ | _) <;> decide
    exact hsort c.sort
  | constant c =>
    rw [tag, ConstantDecl.tag]
    split <;> decide
  | function | method | property | classConstant | «variable» =>
    rw [tag]
    decide

theorem exists_write (s : Symbol) : ∃ rest, s.write = Write.word s.tag ++ rest := by
  cases s <;> exact ⟨_, rfl⟩

end Symbol

namespace RecordKind

/-- What a reader of the kind says of a record with a tag that is none of its own. There are many
tags of symbols, so that their reader names none that it expected. -/
def refusal? : RecordKind → UInt32 → Option FormatError
  | symbol, found => some (.unknownTag found)
  | reference, found => some (.tagMismatch Tag.reference found)
  | variableScope, found => some (.tagMismatch Tag.variableScope found)
  | imports, found => some (.tagMismatch Tag.imports found)
  | document, found => some (.tagMismatch Tag.document found)
  | completion, found => some (.tagMismatch Tag.completion found)
  | parameter, _ => none
  | signature, _ => none

/-- The tag in front of the value's record. -/
def tag? : (k : RecordKind) → k.Carrier → Option UInt32
  | symbol, s => some (Symbol.tag s)
  | reference, _ => some Tag.reference
  | variableScope, _ => some Tag.variableScope
  | imports, _ => some Tag.imports
  | document, _ => some Tag.document
  | completion, _ => some Tag.completion
  | parameter, _ => none
  | signature, _ => none

theorem mem_tags {k : RecordKind} {a : k.Carrier} {found : UInt32} (h : k.tag? a = some found) :
    found ∈ k.tags := by
  cases k with
  | symbol =>
    obtain rfl : Symbol.tag a = found := Option.some.inj h
    exact a.tag_mem_tags
  | reference | variableScope | imports | document | completion =>
    cases h
    exact List.mem_singleton_self _
  | parameter | signature => cases h

/-- A record begins with its tag. -/
theorem exists_toRecord {k : RecordKind} {a : k.Carrier} {found : UInt32}
    (h : k.tag? a = some found) : ∃ rest, toRecord a = Write.word found ++ rest := by
  cases k with
  | symbol =>
    obtain rfl : Symbol.tag a = found := Option.some.inj h
    exact a.exists_write
  | reference | variableScope | imports | document | completion =>
    cases h
    exact ⟨_, rfl⟩
  | parameter | signature => cases h

theorem takes {k : RecordKind} {a : k.Carrier} (h : k.Fits a) :
    ∃ b : k.Carrier, Reader.Takes RecordFormat.read (RecordFormat.write a) b := by
  cases k with
  | symbol => exact ⟨_, takes_symbol h⟩
  | reference => exact ⟨_, takes_reference h⟩
  | variableScope => exact ⟨_, takes_variableScope h⟩
  | imports => exact ⟨_, takes_imports h⟩
  | document => exact ⟨_, takes_document h⟩
  | completion => exact ⟨_, takes_completion h.1 h.2⟩
  | parameter => exact ⟨_, takes_parameter h⟩
  | signature => exact ⟨_, takes_signature h⟩

theorem steady (k : RecordKind) : Reader.Steady (RecordFormat.read : Reader k.Carrier) := by
  cases k with
  | symbol => exact Reader.steady_symbol
  | reference => exact Reader.steady_reference
  | variableScope => exact Reader.steady_variableScope
  | imports => exact Reader.steady_imports
  | document => exact Reader.steady_document
  | completion => exact Reader.steady_completion
  | parameter => exact Reader.steady_parameter
  | signature => exact Reader.steady_signature

end RecordKind

section Refusal

theorem Reader.run_tag_of_ne {expected found : UInt32} (h : found ≠ expected) (rest : Bytes) :
    (Reader.tag expected).run (Write.word found ++ rest) =
      (.error (.tagMismatch expected found), rest) := by
  rw [Reader.tag, Reader.run_bind_ok (Reader.takes_word found rest), if_neg h]
  rfl

theorem ofRecord_of_run_error [RecordFormat α] {e : FormatError} {bytes rest : Bytes}
    (h : (RecordFormat.read : Reader α).run bytes = (.error e, rest)) :
    ofRecord (α := α) bytes = .error e := congrArg Prod.fst (Reader.run_bind_error h)

theorem Symbol.run_readTagged {found : UInt32} (h : found ∉ RecordKind.symbol.tags)
    (rest : Bytes) : (Symbol.readTagged found).run rest = (.error (.unknownTag found), rest) := by
  simp only [RecordKind.tags, List.mem_cons, List.not_mem_nil, or_false, not_or] at h
  obtain ⟨h₁, h₂, h₃, h₄, h₅, h₆, h₇, h₈, h₉, h₁₀⟩ := h
  rw [readTagged, if_neg h₁, if_neg h₂, if_neg h₃, if_neg h₄, if_neg h₅, if_neg h₆, if_neg h₇,
    if_neg h₈, if_neg h₉, if_neg h₁₀]
  rfl

/-- Whatever follows a tag of another kind, it is the tag that is refused. -/
theorem ofRecord_of_notMem_tags {k : RecordKind} {found : UInt32} (h : found ∉ k.tags)
    {e : FormatError} (he : k.refusal? found = some e) (rest : Bytes) :
    ofRecord (α := k.Carrier) (Write.word found ++ rest) = .error e := by
  cases k with
  | symbol =>
    cases he
    have hrun := (Reader.run_bind_ok (Reader.takes_word found rest)).trans
      (Symbol.run_readTagged h rest)
    exact ofRecord_of_run_error hrun
  | reference | variableScope | imports | document | completion =>
    cases he
    have hne := fun heq => h (List.mem_singleton.2 heq)
    exact ofRecord_of_run_error (Reader.run_bind_error (Reader.run_tag_of_ne hne rest))
  | parameter | signature => cases he

end Refusal

/-- A record of any kind ends where its bytes do: cut short it ends too early, and more bytes are
counted as left over. As a record of another kind it is refused by its tag. -/
theorem record_delimits_itself (k : RecordKind) (a : k.Carrier) (h : k.Fits a) :
    (∀ front cut, cut ≠ [] → toRecord a = front ++ cut →
      Reader.EndsEarly (ofRecord (α := k.Carrier) front)) ∧
    (∀ more : Bytes, more ≠ [] →
      ofRecord (α := k.Carrier) (toRecord a ++ more) = .error (.trailingBytes more.length)) ∧
    ∀ other : RecordKind, other ≠ k → ∀ found, k.tag? a = some found →
      ∀ e, other.refusal? found = some e →
        ofRecord (α := other.Carrier) (toRecord a) = .error e := by
  obtain ⟨b, htakes⟩ := RecordKind.takes h
  refine ⟨fun front cut hcut happend => ?cut, fun more hmore => ?more,
    fun other hother found hfound e he => ?other⟩
  case cut => exact ofRecord_cut k.steady htakes hcut happend
  case more =>
    obtain ⟨n, hn⟩ := Nat.exists_eq_succ_of_ne_zero (mt List.length_eq_zero_iff.1 hmore)
    rw [hn]
    exact ofRecord_append htakes hn
  case other =>
    obtain ⟨rest, hrest⟩ := RecordKind.exists_toRecord hfound
    rw [hrest]
    have hnot := RecordKind.tags_disjoint hother (RecordKind.mem_tags hfound)
    exact ofRecord_of_notMem_tags hnot he rest

/-- A completion word that is cut off before its name, has two bytes behind it, and stands where
a reference or a symbol is read. -/
theorem completion_delimits_itself :
    Reader.EndsEarly
      (ofRecord (α := CompletionEntry) ((toRecord (CompletionEntry.mk "u" "n")).take 13)) ∧
    ofRecord (α := CompletionEntry) (toRecord (CompletionEntry.mk "u" "n") ++ [0, 0]) =
      .error (.trailingBytes 2) ∧
    ofRecord (α := Reference) (toRecord (CompletionEntry.mk "u" "n")) =
      .error (.tagMismatch 20 24) ∧
    ofRecord (α := Symbol) (toRecord (CompletionEntry.mk "u" "n")) = .error (.unknownTag 24) := by
  have hfits : FitsText "u" ∧ FitsText "n" := by decide
  obtain ⟨hcut, hmore, hother⟩ :=
    record_delimits_itself .completion (CompletionEntry.mk "u" "n") hfits
  refine ⟨?cut, hmore [0, 0] (by decide), ?reference, ?symbol⟩
  case cut => exact hcut _ _ (by decide) (List.take_append_drop 13 _).symm
  case reference => exact hother .reference (by decide) 24 rfl _ rfl
  case symbol => exact hother .symbol (by decide) 24 rfl _ rfl

end PhpIndex
