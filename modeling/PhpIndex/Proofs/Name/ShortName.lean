import PhpIndex.Proofs.Name.BareWord
import PhpIndex.Proofs.OrderedMap

/-!
# Short names read back

A name is spelled by an alias of it, else below a class alias, else relative to the namespace, else
in full. What is spelled by a plain alias or in full is read as the name again. A spelling relative
to the namespace may begin like something else, which is then what is read: a name in full, the word
for the namespace, an alias.
Main statement: `short_name_reads_back`.
-/
namespace PhpIndex

/-! ## Cuts at separators -/

theorem Chars.splitFirst_append {c : Char} {a b : List Char} (h : c ∉ a) :
    splitFirst c (a ++ c :: b) = some (a, b) := by
  induction a with
  | nil => simp [splitFirst]
  | cons d rest ih =>
    obtain ⟨hd, hrest⟩ := not_or.1 (mt List.mem_cons.2 h)
    rw [List.cons_append, splitFirst, if_neg (Ne.symm hd), ih hrest]
    rfl

namespace Text
variable {s a b : String}

theorem toList_append_separator (a b : String) :
    (a ++ "\\" ++ b).toList = a.toList ++ '\\' :: b.toList := by
  rw [String.toList_append, String.toList_append, List.append_assoc]
  rfl

theorem eq_of_splitFirst (h : splitFirst '\\' s = some (a, b)) : s = a ++ "\\" ++ b := by
  obtain ⟨⟨x, y⟩, hchars, hpair⟩ := Option.map_eq_some_iff.1 h
  obtain ⟨rfl, rfl⟩ := Prod.mk.inj hpair
  rw [← String.toList_inj, toList_append_separator, String.toList_ofList, String.toList_ofList]
  exact (Chars.splitFirst_eq_some hchars).1

theorem splitFirst_append (h : '\\' ∉ a.toList) (b : String) :
    splitFirst '\\' (a ++ "\\" ++ b) = some (a, b) := by
  rw [splitFirst, toList_append_separator, Chars.splitFirst_append h, Option.map_some,
    String.ofList_toList, String.ofList_toList]

theorem splitFirst_of_not_mem (h : '\\' ∉ s.toList) : splitFirst '\\' s = none := by
  refine Option.eq_none_iff_forall_ne_some.2 fun ⟨a, b⟩ hsplit => h ?_
  rw [eq_of_splitFirst hsplit, toList_append_separator]
  exact List.mem_append_right _ List.mem_cons_self

theorem afterLead?_eq_some {lead rest : String} : afterLead? lead s = some rest ↔ s = lead ++ rest
    := by
  refine ⟨fun h => ?_, ?_⟩
  · rw [← String.toList_inj, String.toList_append]
    exact eq_append_of_afterLead? h
  · rintro rfl
    exact afterLead?_append lead rest

theorem length_lt_of_afterLead? {lead rest : String} (h : afterLead? lead s = some rest)
    (hlead : 0 < lead.length) : rest.length < s.length := by
  rw [afterLead?_eq_some.1 h, String.length_append]
  omega

/-- What is behind a beginning that has a separator is not cut off a text without one. -/
theorem afterLead?_of_not_mem {lead : String} (hlead : '\\' ∈ lead.toList) (h : '\\' ∉ s.toList) :
    afterLead? lead s = none := by
  refine Option.eq_none_iff_forall_ne_some.2 fun rest hrest => h ?_
  rw [afterLead?_eq_some.1 hrest, String.toList_append]
  exact List.mem_append_left _ hlead

end Text

namespace Imports
variable {t : Imports} {kind : ImportKind} {name : String}

theorem below?_eq_some {target rest : String} :
    below? target name = some rest ↔ name = target ++ "\\" ++ rest := by
  simp only [below?, Option.bind_eq_some_iff, Text.afterLead?_eq_some]
  constructor
  · rintro ⟨more, rfl, rfl⟩
    rw [String.append_assoc]
  · rintro rfl
    exact ⟨"\\" ++ rest, String.append_assoc, rfl⟩

/-! ## How a name is spelled -/

/-- Whether no alias of the kind stands for the name, and no class alias for what it lies below. -/
structure Uncovered (t : Imports) (kind : ImportKind) (name : String) : Prop where
  unimported : ∀ known, (t.aliases kind).get? known ≠ some name
  outside : ∀ known target, t.classes.get? known = some target → below? target name = none

/-- The name relative to the namespace, if it lies in it. -/
def relative? (t : Imports) (name : String) : Option String :=
  if t.segments.isEmpty then some name else Text.afterLead? (t.namespaceName ++ "\\") name

theorem shortName_cases (t : Imports) (kind : ImportKind)
    (hlead : Text.startsWith "\\" name = false) :
    (∃ known, (t.aliases kind).get? known = some name ∧ t.shortName name kind = known) ∨
    (∃ known target rest, t.classes.get? known = some target ∧ name = target ++ "\\" ++ rest ∧
      t.shortName name kind = known ++ "\\" ++ rest) ∨
    t.Uncovered kind name ∧ t.shortName name kind = (t.relative? name).getD ("\\" ++ name) := by
  simp only [shortName, trimLead_of_not_startsWith hlead]
  split
  next known target hfind =>
    have hmem := List.mem_of_find?_eq_some hfind
    have htarget : target = name := by simpa using List.find?_some hfind
    exact .inl ⟨known, (OrderedMap.get?_eq_some_iff _ _ _).2 (htarget ▸ hmem), rfl⟩
  next hnone =>
    right
    have hunimported (known : String) : (t.aliases kind).get? known ≠ some name := fun hget =>
      List.find?_eq_none.1 hnone _ ((OrderedMap.get?_eq_some_iff _ _ _).1 hget) (beq_self_eq_true _)
    split
    next short hshort =>
      obtain ⟨⟨known, target⟩, hmem, hrest⟩ := List.exists_of_findSome?_eq_some hshort
      obtain ⟨rest, hbelow, hspelled⟩ := Option.map_eq_some_iff.1 hrest
      exact .inl ⟨known, target, rest, (OrderedMap.get?_eq_some_iff _ _ _).2 hmem,
        below?_eq_some.1 hbelow, hspelled.symm⟩
    next hshort =>
      refine .inr ⟨⟨hunimported, fun known target hget => ?_⟩, ?_⟩
      · have hmem := (OrderedMap.get?_eq_some_iff _ _ _).1 hget
        have hnone := List.findSome?_eq_none_iff.1 hshort _ hmem
        exact Option.map_eq_none_iff.1 hnone
      · unfold relative?
        split
        · rfl
        · cases Text.afterLead? (t.namespaceName ++ "\\") name <;> rfl

/-! ## How a spelling is read -/

/-- Whether the alias is one segment, and not the word for the namespace. -/
def IsWord (known : String) : Prop := '\\' ∉ known.toList ∧ known ≠ "namespace"

instance : DecidablePred IsWord := fun _ => inferInstanceAs (Decidable (_ ∧ _))

theorem absoluteName_alias {known target : String} (hword : IsWord known)
    (hget : (t.aliases kind).get? known = some target) : t.absoluteName known kind = target := by
  have hseparator : Text.afterLead? "\\" known = none :=
    Text.afterLead?_of_not_mem (by decide) hword.1
  have hkeyword : Text.afterLead? "namespace\\" known = none :=
    Text.afterLead?_of_not_mem (by decide) hword.1
  simp only [absoluteName, hseparator, hkeyword, Text.splitFirst_of_not_mem hword.1, hget]

theorem absoluteName_below {known target : String} (hword : IsWord known) (hne : known ≠ "")
    (hget : t.classes.get? known = some target) (rest : String) :
    t.absoluteName (known ++ "\\" ++ rest) kind = target ++ "\\" ++ rest := by
  have hsplit := Text.splitFirst_append hword.1 rest
  -- What else the spelling may begin with has a first segment of its own.
  have hfirst {first : String} (hfirst : '\\' ∉ first.toList) (hother : known ≠ first) :
      Text.afterLead? (first ++ "\\") (known ++ "\\" ++ rest) = none := by
    refine Option.eq_none_iff_forall_ne_some.2 fun more hmore => hother ?_
    rw [Text.afterLead?_eq_some.1 hmore, Text.splitFirst_append hfirst] at hsplit
    exact (Prod.mk.inj (Option.some.inj hsplit)).1.symm
  have hseparator : Text.afterLead? "\\" (known ++ "\\" ++ rest) = none :=
    hfirst (by decide) hne
  have hkeyword : Text.afterLead? "namespace\\" (known ++ "\\" ++ rest) = none :=
    hfirst (by decide) hword.2
  simp only [absoluteName, hseparator, hkeyword, hsplit, hget]

theorem absoluteName_full (t : Imports) (kind : ImportKind) (name : String) :
    t.absoluteName ("\\" ++ name) kind = name := by
  simp only [absoluteName, Text.afterLead?_append]

/-- What a spelling relative to the namespace is read as instead. -/
inductive Taken (t : Imports) (kind : ImportKind) (relative : String) : Prop
  | separator (h : Text.startsWith "\\" relative)
  | keyword (h : Text.startsWith "namespace\\" relative)
  | segment {first rest target : String} (h : Text.splitFirst '\\' relative = some (first, rest))
    (hget : t.classes.get? first = some target)
  | imported {target : String} (h : Text.splitFirst '\\' relative = none)
    (hget : (t.aliases kind).get? relative = some target)

/-- What stands in front of a relative name is put in front of every name in the namespace. -/
theorem exists_front {relative : String} (h : t.relative? name = some relative) :
    ∃ front : String, name = front ++ relative ∧ ∀ other, t.namespaced other =
      front ++ trimLead other := by
  unfold relative? at h
  simp only [namespaced]
  split at h
  next hempty =>
    refine ⟨"", ?_, fun other => ?_⟩
    · rw [Option.some.inj h, String.empty_append]
    · rw [if_pos hempty, String.empty_append]
  next hempty =>
    refine ⟨t.namespaceName ++ "\\", Text.afterLead?_eq_some.1 h, fun other => ?_⟩
    rw [if_neg hempty]

theorem length_trimLead_le (name : String) : (trimLead name).length ≤ name.length := by
  rw [trimLead, Text.trimStart, String.length_ofList, ← String.length_toList]
  exact (List.dropWhile_sublist _).length_le

/-- A relative spelling that is not taken is read as the name. -/
theorem absoluteName_of_not_taken {relative : String} (h : t.relative? name = some relative)
    (htaken : ¬ t.Taken kind relative) : t.absoluteName relative kind = name := by
  have hlead : Text.startsWith "\\" relative = false :=
    Bool.eq_false_iff.2 fun hstarts => htaken (.separator hstarts)
  have hkeyword : Text.startsWith "namespace\\" relative = false :=
    Bool.eq_false_iff.2 fun hstarts => htaken (.keyword hstarts)
  have hread : t.absoluteName relative kind = t.namespaced relative := by
    simp only [absoluteName, Text.afterLead?_eq_none.2 hlead, Text.afterLead?_eq_none.2 hkeyword]
    cases hsplit : Text.splitFirst '\\' relative with
    | none =>
      have hget : (t.aliases kind).get? relative = none :=
        Option.eq_none_iff_forall_ne_some.2 fun target hget => htaken (.imported hsplit hget)
      rw [hget]
    | some parts =>
      have hget : t.classes.get? parts.1 = none :=
        Option.eq_none_iff_forall_ne_some.2 fun target hget => htaken (.segment hsplit hget)
      simp only [hget]
  obtain ⟨front, rfl, hnamespaced⟩ := exists_front h
  rw [hread, hnamespaced, trimLead_of_not_startsWith hlead]

/-- A relative spelling that is taken is read as something else, if nothing covers the name. -/
theorem Taken.absoluteName_ne {relative : String} (htaken : t.Taken kind relative)
    (huncovered : t.Uncovered kind name) (h : t.relative? name = some relative) :
    t.absoluteName relative kind ≠ name := by
  obtain ⟨front, rfl, hnamespaced⟩ := exists_front h
  intro hback
  unfold absoluteName at hback
  split at hback
  next absolute _ habsolute =>
    have hlt := Text.length_lt_of_afterLead? habsolute (by decide)
    rw [hback, String.length_append] at hlt
    omega
  next rest _ hrest =>
    have hlt := Text.length_lt_of_afterLead? hrest (by decide)
    have htrim := length_trimLead_le rest
    have hlength := congrArg String.length hback
    rw [hnamespaced, String.length_append, String.length_append] at hlength
    omega
  next hlead hkeyword =>
    cases htaken with
    | separator hstarts => exact absurd hstarts (by simp [Text.afterLead?_eq_none.1 hlead])
    | keyword hstarts => exact absurd hstarts (by simp [Text.afterLead?_eq_none.1 hkeyword])
    | segment hsplit hget =>
      simp only [hsplit, hget] at hback
      have hbelow := huncovered.outside _ _ hget
      rw [below?_eq_some.2 hback.symm] at hbelow
      cases hbelow
    | imported hsplit hget =>
      simp only [hsplit, hget] at hback
      exact huncovered.unimported relative (hback ▸ hget)

/-! ## Tables that are reached by calls -/

/-- A change to the imports of a document. -/
inductive Call where
  | setNamespace (name : String)
  | addImport (kind : ImportKind) (name : String) (alias? : Option String)

def call (t : Imports) : Call → Imports
  | .setNamespace name => t.setNamespace name
  | .addImport kind name alias? => t.addImport kind name alias?

def ofCalls (calls : List Call) : Imports := calls.foldl call empty

/-- Whether an alias that the call enters is one segment, and not the word for the namespace. -/
def Call.Plain : Call → Prop
  | setNamespace _ => True
  | addImport _ name alias? => IsWord (alias?.getD (Text.afterLast '\\' (trimLead name)))

instance : DecidablePred Call.Plain
  | .setNamespace _ => inferInstanceAs (Decidable True)
  | .addImport _ _ _ => inferInstanceAs (Decidable (IsWord _))

/-- Whether all aliases are plain. -/
def Worded (t : Imports) : Prop :=
  ∀ kind known target, (t.aliases kind).get? known = some target → known ≠ "" ∧ IsWord known

theorem get?_withAlias (t : Imports) (kind kind' : ImportKind) (known target other : String) :
    ((t.withAlias kind known target).aliases kind').get? other =
      if kind = kind' ∧ other = known then some target else (t.aliases kind').get? other := by
  cases kind <;> cases kind' <;> simp [withAlias, aliases, OrderedMap.get?_insert]

theorem aliases_setNamespace (t : Imports) (name : String) (kind : ImportKind) :
    (t.setNamespace name).aliases kind = t.aliases kind := by
  cases kind <;> simp only [setNamespace, aliases]

theorem Worded.call (h : t.Worded) {c : Call} (hc : c.Plain) : (t.call c).Worded := by
  cases c with
  | setNamespace name =>
    intro kind known target hget
    rw [Imports.call, aliases_setNamespace] at hget
    exact h kind known target hget
  | addImport kind name alias? =>
    intro kind' known target hget
    simp only [Imports.call, addImport] at hget
    split at hget
    next => exact h kind' known target hget
    next hkept =>
      rw [get?_withAlias] at hget
      split at hget
      next hnew =>
        rw [hnew.2]
        simp only [Bool.or_eq_true, not_or, String.isEmpty_iff] at hkept
        exact ⟨hkept.1, hc⟩
      next => exact h kind' known target hget

theorem worded_ofCalls {calls : List Call} (h : ∀ c ∈ calls, c.Plain) : (ofCalls calls).Worded := by
  refine List.foldlRecOn calls Imports.call (fun kind known target hget => ?_)
    fun t ht c hc => ht.call (h c hc)
  cases kind <;> cases hget

/-- Whether a name is spelled relative to the namespace, so that it is read as something else. -/
structure Shadowed (t : Imports) (kind : ImportKind) (name : String) : Prop extends
    t.Uncovered kind name where
  taken : ∃ relative, t.relative? name = some relative ∧ t.Taken kind relative

/-- In any table a spelling that is taken is read as something else. -/
theorem Shadowed.absoluteName_ne (h : t.Shadowed kind name)
    (hlead : Text.startsWith "\\" name = false) :
    t.absoluteName (t.shortName name kind) kind ≠ name := by
  obtain ⟨huncovered, relative, hrelative, htaken⟩ := h
  rcases t.shortName_cases kind hlead with ⟨known, hget, -⟩ |
    ⟨known, target, rest, hget, hname, -⟩ | ⟨-, hshort⟩
  · exact absurd hget (huncovered.unimported known)
  · have hbelow := huncovered.outside known target hget
    rw [below?_eq_some.2 hname] at hbelow
    cases hbelow
  · rw [hshort, hrelative]
    exact htaken.absoluteName_ne huncovered hrelative

theorem Worded.absoluteName_shortName (h : t.Worded)
    (hlead : Text.startsWith "\\" name = false) (hshadowed : ¬ t.Shadowed kind name) :
    t.absoluteName (t.shortName name kind) kind = name := by
  rcases t.shortName_cases kind hlead with ⟨known, hget, hshort⟩ |
    ⟨known, target, rest, hget, rfl, hshort⟩ | ⟨huncovered, hshort⟩
  · rw [hshort]
    exact absoluteName_alias (h kind known name hget).2 hget
  · obtain ⟨hne, hword⟩ := h .class known target hget
    rw [hshort]
    exact absoluteName_below hword hne hget rest
  · rw [hshort]
    cases hrelative : t.relative? name with
    | none => exact t.absoluteName_full kind name
    | some relative =>
      refine absoluteName_of_not_taken hrelative fun htaken => hshadowed ?_
      exact ⟨huncovered, relative, hrelative, htaken⟩

end Imports

/-- With plain aliases a short name is read as the name that it was made of, unless it is spelled
relative to the namespace and that spelling is taken; then it is read as something else. -/
theorem short_name_reads_back (calls : List Imports.Call) (kind : ImportKind) {name : String}
    (hlead : Text.startsWith "\\" name = false) :
    let t := Imports.ofCalls calls
    (t.Shadowed kind name → t.absoluteName (t.shortName name kind) kind ≠ name) ∧
    ((∀ c ∈ calls, c.Plain) → ¬ t.Shadowed kind name →
      t.absoluteName (t.shortName name kind) kind = name) :=
  ⟨fun hshadowed => hshadowed.absoluteName_ne hlead, fun hplain hshadowed =>
    (Imports.worded_ofCalls hplain).absoluteName_shortName hlead hshadowed⟩

theorem short_name_reads_back_home :
    let calls : List Imports.Call := [.setNamespace "App\\Http",
      .addImport .class "App\\Models\\User" none,
      .addImport .class "Illuminate\\Support\\Facades" (some "F"),
      .addImport .function "App\\Support\\helper" none]
    let t := Imports.ofCalls calls
    let name := "App\\Http\\Controllers\\Home"
    Text.startsWith "\\" name = false ∧ (∀ c ∈ calls, c.Plain) ∧ ¬ t.Shadowed .class name ∧
      t.absoluteName (t.shortName name .class) .class = name := by
  intro calls t name
  have hlead : Text.startsWith "\\" name = false := by decide
  have hplain : ∀ c ∈ calls, c.Plain := by decide +kernel
  have hshadowed : ¬ t.Shadowed .class name := by
    rintro ⟨-, relative, hrelative, htaken⟩
    have hhome : t.relative? name = some "Controllers\\Home" := by decide +kernel
    obtain rfl := Option.some.inj (hhome.symm.trans hrelative)
    have hsplit : Text.splitFirst '\\' "Controllers\\Home" = some ("Controllers", "Home") := by
      decide
    have hnone : t.classes.get? "Controllers" = none := by decide +kernel
    cases htaken with
    | separator h => exact absurd h (by decide)
    | keyword h => exact absurd h (by decide)
    | segment h hget =>
      cases hsplit.symm.trans h
      cases hnone.symm.trans hget
    | imported h _ => cases hsplit.symm.trans h
  obtain ⟨-, hreads⟩ := short_name_reads_back calls .class hlead
  exact ⟨hlead, hplain, hshadowed, hreads hplain hshadowed⟩

/-- Names below the namespace or in no namespace, spelled like an alias, and names under aliases
that are no plain words: the word for the namespace, and a text with a separator. -/
theorem short_name_misread :
    let reads (calls : List Imports.Call) (name : String) :=
      let t := Imports.ofCalls calls
      (t.shortName name .class, t.absoluteName (t.shortName name .class) .class)
    reads [.setNamespace "App", .addImport .class "Foo\\Controllers" none]
      "App\\Controllers\\Home" = ("Controllers\\Home", "Foo\\Controllers\\Home") ∧
    reads [.addImport .class "Foo\\Bar" none] "Bar" = ("Bar", "Foo\\Bar") ∧
    reads [.addImport .class "Foo" (some "namespace")] "Foo\\Bar" = ("namespace\\Bar", "Bar") ∧
    reads [.addImport .class "Foo" (some "X\\Y")] "Foo" = ("X\\Y", "X\\Y") := by
  decide +kernel

end PhpIndex
