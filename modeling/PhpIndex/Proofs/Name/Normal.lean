import PhpIndex.Proofs.Record.NormalForm

/-!
# Type names that survive storing

Storing keeps the spelling of a name unless it is unresolved and begins with a separator, which
then is read as the mark of an absolute name. Names that were read from source or resolved are
never of that sort. A union of such names keeps its names and their order, and a name that is no
built-in type is kept as a whole.
Main statements: `TypeName.name_normal`, `TypeUnion.Tidy.names_normal`.
-/
namespace PhpIndex

namespace Text

theorem afterLead?_append (lead s : String) : afterLead? lead (lead ++ s) = some s := by
  have hprefix : lead.toList.isPrefixOf (lead ++ s).toList = true := by
    rw [String.toList_append, List.isPrefixOf_iff_prefix]
    exact List.prefix_append _ _
  rw [afterLead?, if_pos hprefix, String.toList_append, ← String.length_toList, List.drop_left,
    String.ofList_toList]

theorem afterLead?_eq_none {lead s : String} :
    afterLead? lead s = none ↔ startsWith lead s = false := by
  unfold afterLead? startsWith
  split
  next h => simp [h]
  next h => exact ⟨fun _ => Bool.eq_false_iff.2 h, fun _ => rfl⟩

end Text

namespace Imports

theorem trimLead_of_not_startsWith {name : String} (h : Text.startsWith "\\" name = false) :
    trimLead name = name := by
  have hdrop : name.toList.dropWhile (· == '\\') = name.toList := by
    rw [Text.startsWith, Bool.eq_false_iff, ne_eq, List.isPrefixOf_iff_prefix] at h
    cases hname : name.toList with
    | nil => rfl
    | cons c rest =>
      refine List.dropWhile_cons_of_neg fun hc => h ?_
      exact ⟨rest, by rw [hname, beq_iff_eq.1 hc]; rfl⟩
  rw [trimLead, Text.trimStart, hdrop, String.ofList_toList]

end Imports

namespace TypeName

/-- Whether the name is spelled the same after it was stored. -/
def Steady (t : TypeName) : Prop := t.absolute = true ∨ Text.startsWith "\\" t.name = false

instance : DecidablePred Steady := fun _ => inferInstanceAs (Decidable (_ ∨ _))

theorem canonicalBuiltin?_of_mem {name : String} (h : name ∈ builtinTypes) :
    canonicalBuiltin? name = some name := by
  have hall : ∀ b ∈ builtinTypes, canonicalBuiltin? b = some b := by decide
  exact hall name h

theorem mem_of_canonicalBuiltin? {name builtin : String}
    (h : canonicalBuiltin? name = some builtin) : builtin ∈ builtinTypes := by
  simp only [canonicalBuiltin?, Option.ite_none_right_eq_some] at h
  exact Option.some.inj h.2 ▸ h.1

theorem canonicalBuiltin?_of_lowerAscii {name word : String} (h : Text.lowerAscii name = word)
    (hword : word ∈ builtinTypes) : canonicalBuiltin? name = some word := by
  have hlower : ∀ b ∈ builtinTypes, Text.lowerAscii b = b := by decide
  have hcanonical := canonicalBuiltin?_of_mem hword
  simp only [canonicalBuiltin?, hlower word hword] at hcanonical
  simp only [canonicalBuiltin?, h]
  exact hcanonical

/-- The spellings of built-in types, in lower case. -/
def builtinSpellings : List String := ["boolean", "integer", "double", "real"] ++ builtinTypes

theorem lowerAscii_mem_of_canonicalBuiltin? {name builtin : String}
    (h : canonicalBuiltin? name = some builtin) : Text.lowerAscii name ∈ builtinSpellings := by
  simp only [canonicalBuiltin?] at h
  by_cases hboolean : Text.lowerAscii name = "boolean"
  · simp [builtinSpellings, hboolean]
  by_cases hinteger : Text.lowerAscii name = "integer"
  · simp [builtinSpellings, hinteger]
  by_cases hfloat : Text.lowerAscii name = "double" ∨ Text.lowerAscii name = "real"
  · rcases hfloat with hfloat | hfloat <;> simp [builtinSpellings, hfloat]
  rw [if_neg hboolean, if_neg hinteger, if_neg hfloat, Option.ite_none_right_eq_some] at h
  exact List.mem_append_right _ h.1

theorem startsWith_of_lowered {name mark : String} {c : Char} (hmark : mark.toList = [c])
    (hlower : c.toLower = c) (h : ∀ b ∈ builtinSpellings, b.toList.head? ≠ some c)
    (hname : Text.lowerAscii name ∈ builtinSpellings) : Text.startsWith mark name = false := by
  refine Bool.eq_false_iff.2 fun hstarts => h _ hname ?_
  rw [Text.startsWith, List.isPrefixOf_iff_prefix, hmark] at hstarts
  obtain ⟨rest, hrest⟩ := hstarts
  rw [Text.lowerAscii, String.toList_ofList, ← hrest, List.map_append, List.map_singleton, hlower]
  rfl

theorem startsWith_of_canonicalBuiltin? {name builtin : String}
    (h : canonicalBuiltin? name = some builtin) : Text.startsWith "\\" name = false :=
  startsWith_of_lowered rfl rfl (by decide) (lowerAscii_mem_of_canonicalBuiltin? h)

/-- No built-in type is spelled like a variable. -/
theorem not_dollar_of_canonicalBuiltin? {name builtin : String}
    (h : canonicalBuiltin? name = some builtin) : Text.startsWith "$" name = false :=
  startsWith_of_lowered rfl rfl (by decide) (lowerAscii_mem_of_canonicalBuiltin? h)

theorem startsWith_of_isBuiltin {t : TypeName} (h : t.isBuiltin = true) :
    Text.startsWith "\\" t.name = false := by
  obtain ⟨builtin, hbuiltin⟩ := Option.isSome_iff_exists.1 h
  exact startsWith_of_canonicalBuiltin? hbuiltin

theorem ofStored_of_not_startsWith {stored : String} (h : Text.startsWith "\\" stored = false) :
    ofStored stored = ⟨stored, decide (stored ∈ builtinTypes)⟩ := by
  simp only [ofStored, Text.afterLead?_eq_none.2 h]

theorem normal_of_isBuiltin {t : TypeName} (h : t.isBuiltin = true) :
    t.normal = ⟨t.name, decide (t.name ∈ builtinTypes)⟩ := by
  have hstored : t.toStored = t.name := by
    simp [toStored, h]
  rw [normal, hstored, ofStored_of_not_startsWith (startsWith_of_isBuiltin h)]

/-- A name of a class is kept as it is. -/
theorem normal_of_not_isBuiltin {t : TypeName} (h : t.Steady) (hbuiltin : t.isBuiltin = false) :
    t.normal = t := by
  obtain ⟨name, absolute⟩ := t
  cases absolute with
  | true =>
    have hstored : toStored ⟨name, true⟩ = "\\" ++ name := by
      simp [toStored, hbuiltin]
    rw [normal, hstored, ofStored, Text.afterLead?_append]
  | false =>
    have hstarts : Text.startsWith "\\" name = false := h.resolve_left (by simp)
    have hmem : name ∉ builtinTypes := fun hmem => by
      simp [isBuiltin, canonicalBuiltin?_of_mem hmem] at hbuiltin
    have hstored : toStored ⟨name, false⟩ = name := by
      simp [toStored]
    rw [normal, hstored, ofStored_of_not_startsWith hstarts, decide_eq_false hmem]

theorem name_normal {t : TypeName} (h : t.Steady) : t.normal.name = t.name := by
  cases hbuiltin : t.isBuiltin with
  | true => rw [normal_of_isBuiltin hbuiltin]
  | false => rw [normal_of_not_isBuiltin h hbuiltin]

theorem isBuiltin_normal {t : TypeName} (h : t.Steady) : t.normal.isBuiltin = t.isBuiltin := by
  rw [isBuiltin, isBuiltin, name_normal h]

theorem isVariable_normal {t : TypeName} (h : t.Steady) :
    t.normal.isVariable = t.isVariable := by
  rw [isVariable, isVariable, name_normal h]

theorem steady_ofAbsolute (name : String) : (ofAbsolute name).Steady := .inl rfl

theorem steady_ofSource (raw : String) : (ofSource raw).Steady := by
  unfold ofSource
  simp only
  split
  · exact steady_ofAbsolute _
  next hlead =>
    split
    · exact .inl rfl
    · exact .inr (Text.afterLead?_eq_none.1 hlead)

/-- A name that was read from source has lost the separators in front. -/
theorem startsWith_ofSource (raw : String) :
    Text.startsWith "\\" (ofSource raw).name = false := by
  have hbuiltin {name builtin : String} (h : canonicalBuiltin? name = some builtin) :
      Text.startsWith "\\" builtin = false :=
    startsWith_of_canonicalBuiltin? (canonicalBuiltin?_of_mem (mem_of_canonicalBuiltin? h))
  have htrim (name : String) : Text.startsWith "\\" (Imports.trimLead name) = false := by
    refine Bool.eq_false_iff.2 fun hstarts => ?_
    rw [Text.startsWith, List.isPrefixOf_iff_prefix, Imports.trimLead, Text.trimStart] at hstarts
    obtain ⟨rest, hrest⟩ := hstarts
    have hhead := List.head?_dropWhile_not (· == '\\') name.toList
    simp only [String.toList_ofList] at hrest
    rw [← hrest] at hhead
    have hfalse : ('\\' == '\\') = false := hhead
    exact absurd hfalse (by decide)
  unfold ofSource
  simp only
  split
  next rest _ =>
    unfold ofAbsolute
    simp only
    cases hname : canonicalBuiltin? (Imports.trimLead rest) with
    | none => exact htrim rest
    | some builtin => exact hbuiltin hname
  next hlead =>
    split
    next builtin hname => exact hbuiltin hname
    · exact Text.afterLead?_eq_none.1 hlead

theorem steady_of_isVariable {t : TypeName} (h : t.isVariable = true) : t.Steady := by
  refine .inr (Bool.eq_false_iff.2 fun hstarts => ?_)
  rw [isVariable, Text.startsWith, List.isPrefixOf_iff_prefix] at h
  rw [Text.startsWith, List.isPrefixOf_iff_prefix] at hstarts
  obtain ⟨rest, hrest⟩ := h
  obtain ⟨rest', hrest'⟩ := hstarts
  have hhead := congrArg List.head? (hrest.trans hrest'.symm)
  exact absurd hhead (by simp)

/-- Whatever was resolved is absolute or a variable. -/
theorem steady_resolveAs (t : TypeName) (imports : Imports) (kind : ImportKind) :
    (t.resolveAs imports kind).Steady := by
  unfold resolveAs
  split
  next h =>
    rcases Bool.or_eq_true_iff.1 h with h | h
    · exact .inl h
    · exact steady_of_isVariable h
  · exact .inl rfl

end TypeName

namespace TypeUnion

/-- Whether all names survive storing and none of them occurs twice. -/
structure Tidy (u : TypeUnion) : Prop where
  steady : ∀ t ∈ u.types, t.Steady
  nodup : u.names.Nodup

theorem tidy_empty : empty.Tidy := ⟨nofun, List.nodup_nil⟩

theorem tidy_single {t : TypeName} (h : t.Steady) : (single t).Tidy :=
  ⟨fun _ ht => List.mem_singleton.1 ht ▸ h, List.pairwise_singleton _ _⟩

theorem Tidy.push {u : TypeUnion} (h : u.Tidy) {t : TypeName} (ht : t.Steady) :
    (u.push t).Tidy := by
  constructor
  case steady =>
    intro t' ht'
    unfold TypeUnion.push at ht'
    split at ht'
    · exact h.steady t' ht'
    · rcases List.mem_append.1 ht' with ht' | ht'
      · exact h.steady t' ht'
      · exact List.mem_singleton.1 ht' ▸ ht
  case nodup =>
    rw [names_push]
    split
    · exact h.nodup
    next hnew =>
      rw [List.nodup_append]
      refine ⟨h.nodup, List.pairwise_singleton _ _, fun a ha b hb => ?_⟩
      rw [List.mem_singleton.1 hb]
      rintro rfl
      exact hnew ha

theorem Tidy.foldl_push {ts : List TypeName} (hts : ∀ t ∈ ts, t.Steady) {u : TypeUnion}
    (h : u.Tidy) : (ts.foldl TypeUnion.push u).Tidy := by
  induction ts generalizing u with
  | nil => exact h
  | cons t rest ih =>
    exact ih (fun t' ht' => hts t' (List.mem_cons_of_mem t ht')) (h.push (hts t List.mem_cons_self))

theorem tidy_ofList {ts : List TypeName} (h : ∀ t ∈ ts, t.Steady) : (ofList ts).Tidy :=
  tidy_empty.foldl_push h

theorem Tidy.merge {u v : TypeUnion} (hu : u.Tidy) (hv : v.Tidy) : (u.merge v).Tidy :=
  hu.foldl_push hv.steady

/-- A union of names that all differ is built as it is written. -/
theorem types_foldl_push {ts : List TypeName} {u : TypeUnion}
    (h : (u.types ++ ts).map TypeName.name |>.Nodup) :
    (ts.foldl TypeUnion.push u).types = u.types ++ ts := by
  induction ts generalizing u with
  | nil => simp
  | cons t rest ih =>
    have hnew : u.contains t.name = false := by
      rw [Bool.eq_false_iff]
      intro hcontains
      rw [contains_iff] at hcontains
      rw [List.map_append, List.map_cons, List.nodup_append] at h
      exact h.2.2 t.name hcontains t.name List.mem_cons_self rfl
    have hpush : (u.push t).types = u.types ++ [t] := by
      simp [TypeUnion.push, hnew]
    have happend : (u.push t).types ++ rest = u.types ++ t :: rest := by
      simp [hpush]
    rw [List.foldl_cons, ih (by rwa [happend]), happend]

namespace Tidy
variable {u : TypeUnion}

theorem types_normal (h : u.Tidy) : u.normal.types = u.types.map TypeName.normal := by
  have hnames : (u.types.map TypeName.normal).map TypeName.name = u.names := by
    rw [List.map_map, names]
    exact List.map_congr_left fun t ht => TypeName.name_normal (h.steady t ht)
  have hnodup : ((empty.types ++ u.types.map TypeName.normal).map TypeName.name).Nodup := by
    rw [empty, List.nil_append, hnames]
    exact h.nodup
  rw [normal, ofList, types_foldl_push hnodup]
  rfl

theorem names_normal (h : u.Tidy) : u.normal.names = u.names := by
  rw [names, names, h.types_normal, List.map_map]
  exact List.map_congr_left fun t ht => TypeName.name_normal (h.steady t ht)

theorem isEmpty_normal (h : u.Tidy) : u.normal.isEmpty = u.isEmpty := by
  rw [isEmpty, isEmpty, h.types_normal, List.isEmpty_map]

theorem render_normal (h : u.Tidy) : u.normal.render = u.render := by
  rw [render, render, h.names_normal]

theorem first?_normal (h : u.Tidy) : u.normal.first? = u.first?.map TypeName.normal := by
  rw [first?, first?, h.types_normal, List.head?_map]

/-- The names that are looked up at the top level are kept as they are. -/
theorem filter_normal (h : u.Tidy) {p : TypeName → Bool} (hp : ∀ t, p t → t.isBuiltin = false)
    (hname : ∀ t : TypeName, t.Steady → p t.normal = p t) :
    u.normal.types.filter p = u.types.filter p := by
  rw [h.types_normal, List.filter_map]
  have hcomp : u.types.filter (p ∘ TypeName.normal) = u.types.filter p :=
    List.filter_congr fun t ht => hname t (h.steady t ht)
  rw [hcomp]
  refine (List.map_congr_left fun t ht => ?_).trans (List.map_id _)
  obtain ⟨hmem, hpt⟩ := List.mem_filter.1 ht
  exact TypeName.normal_of_not_isBuiltin (h.steady t hmem) (hp t hpt)

end Tidy
end TypeUnion
end PhpIndex
