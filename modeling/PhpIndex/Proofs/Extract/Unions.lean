import Mathlib.Algebra.Order.BigOperators.Group.List
import Mathlib.Algebra.Order.Group.Nat
import Mathlib.Data.List.Induction
import Mathlib.Data.List.Nodup
import PhpIndex.Extract.DocComment
import PhpIndex.Extract.State
import PhpIndex.Proofs.Record.Unchanged

/-!
# Unions that are resolved

A union has one alternative for each name, and a name is compared as it is spelled, whether it is
absolute or still to be resolved. Names that are spelled alike so meet before they are resolved,
though they may stand for two classes; then the second one is lost. If those that are spelled alike
are the same, a union is resolved alternative by alternative, in the order in which they are first
seen.
Main statement: `resolved_alternatives`.
-/
namespace PhpIndex

namespace TypeUnion
variable {g : TypeName → TypeName} {u v : TypeUnion} {ts : List TypeName}

/-! ## What is pushed -/

theorem mem_names_push {t : TypeName} {name : String} :
    name ∈ (u.push t).names ↔ name ∈ u.names ∨ name = t.name := by
  rw [names_push]
  split
  next hmem =>
    refine ⟨.inl, fun h => h.elim id ?_⟩
    rintro rfl
    exact hmem
  next => rw [List.mem_append, List.mem_singleton]

theorem mem_names_foldl_push {name : String} :
    name ∈ (ts.foldl push u).names ↔ name ∈ u.names ∨ name ∈ ts.map TypeName.name := by
  induction ts generalizing u with
  | nil => simp
  | cons t rest ih =>
    rw [List.foldl_cons, ih, mem_names_push, List.map_cons, List.mem_cons, or_assoc]

/-- A union has the names that it was built of in the order in which they are first seen. -/
theorem names_ofList (ts : List TypeName) :
    (ofList ts).names = (ts.map TypeName.name).eraseDups := by
  induction ts using List.reverseRecOn with
  | nil => rfl
  | append_singleton ts t ih =>
    rw [ofList, List.foldl_append, List.foldl_cons, List.foldl_nil, ← ofList, names_push, ih,
      List.map_append, List.eraseDups_append, List.map_singleton]
    generalize ts.map TypeName.name = names
    by_cases hmem : t.name ∈ names
    · simp [List.removeAll, hmem]
    · simp [List.removeAll, hmem, List.eraseDups_cons]

theorem nodup_names_ofList (ts : List TypeName) : (ofList ts).names.Nodup :=
  nodup_names_foldl_push ts List.nodup_nil

theorem mem_of_mem_ofList {t : TypeName} (h : t ∈ (ofList ts).types) : t ∈ ts :=
  (foldl_push_sublist ts empty).subset h

/-- Names that are pushed and then changed are those that are changed and then pushed, if those
that are spelled alike are changed alike. -/
theorem foldl_push_map (g : TypeName → TypeName) (ts : List TypeName) (u v : TypeUnion)
    (hg : ∀ s ∈ u.types ++ ts, ∀ t ∈ ts, s.name = t.name → (g s).name = (g t).name) :
    ((ts.foldl push u).types.map g).foldl push v =
      (ts.map g).foldl push ((u.types.map g).foldl push v) := by
  induction ts generalizing u with
  | nil => rfl
  | cons t rest ih =>
    rw [List.foldl_cons, List.map_cons, List.foldl_cons]
    by_cases hmem : t.name ∈ u.names
    · have hskip : u.push t = u := if_pos ((u.contains_iff _).2 hmem)
      obtain ⟨s, hs, hname⟩ := List.mem_map.1 hmem
      have hseen : (g t).name ∈ ((u.types.map g).foldl push v).names := by
        rw [← hg s (List.mem_append_left _ hs) t List.mem_cons_self hname]
        exact mem_names_foldl_push.2 (.inr (List.mem_map_of_mem (List.mem_map_of_mem hs)))
      have hskip' : ((u.types.map g).foldl push v).push (g t) = (u.types.map g).foldl push v :=
        if_pos ((contains_iff _ _).2 hseen)
      rw [hskip, hskip']
      refine ih u fun s hs t' ht' => hg s ?_ t' (List.mem_cons_of_mem t ht')
      exact (List.mem_append.1 hs).elim (List.mem_append_left _) fun hs =>
        List.mem_append_right _ (List.mem_cons_of_mem t hs)
    · have hpush : (u.push t).types = u.types ++ [t] :=
        congrArg types (if_neg (mt (u.contains_iff _).1 hmem))
      rw [ih, hpush, List.map_append, List.foldl_append]
      · rfl
      · rw [hpush, List.append_assoc]
        exact fun s hs t' ht' => hg s hs t' (List.mem_cons_of_mem t ht')

theorem merge_ofList (u : TypeUnion) (ts : List TypeName) :
    u.merge (ofList ts) = ts.foldl push u := by
  have hpush := foldl_push_map id ts empty u fun s _ t _ hname => hname
  simp only [List.map_id] at hpush
  exact hpush

theorem ofList_append (ss ts : List TypeName) :
    ofList (ss ++ ts) = (ofList ss).merge (ofList ts) := by
  rw [merge_ofList, ofList, List.foldl_append, ← ofList]

/-! ## What is merged -/

/-- The alternatives of a union without those of a name that the other one has. -/
def without (v u : TypeUnion) : TypeUnion := ⟨v.types.filter fun t => !u.contains t.name⟩

theorem types_merge (hv : v.names.Nodup) : (u.merge v).types = u.types ++ (v.without u).types := by
  obtain ⟨ts⟩ := v
  induction ts generalizing u with
  | nil => simp [merge, without]
  | cons t rest ih =>
    obtain ⟨hnew, hrest⟩ := List.nodup_cons.1 hv
    have hmerge : (u.merge ⟨t :: rest⟩) = (u.push t).merge ⟨rest⟩ := rfl
    rw [hmerge, ih hrest]
    by_cases hmem : t.name ∈ u.names
    · have hcontains := (u.contains_iff _).2 hmem
      have hskip : u.push t = u := if_pos hcontains
      simp [without, hskip, hcontains]
    · have hcontains : u.contains t.name = false :=
        Bool.eq_false_iff.2 (mt (u.contains_iff _).1 hmem)
      have hpush : u.push t = ⟨u.types ++ [t]⟩ := if_neg (mt (u.contains_iff _).1 hmem)
      have hothers : ∀ t' ∈ rest, (u.push t).contains t'.name = u.contains t'.name := by
        intro t' ht'
        have hne : t'.name ≠ t.name := fun heq => hnew (heq ▸ List.mem_map_of_mem ht')
        rw [Bool.eq_iff_iff, contains_iff, contains_iff, mem_names_push, or_iff_left hne]
      simp only [without]
      rw [List.filter_congr fun t' ht' => by rw [hothers t' ht'], hpush,
        List.filter_cons_of_pos (by simp [hcontains]), List.append_assoc, List.singleton_append]

/-! ## What is resolved -/

/-- Whether names that are spelled alike are the same name, or variables. -/
def Agree (ss ts : List TypeName) : Prop :=
  ∀ s ∈ ss, ∀ t ∈ ts, s.name = t.name → s = t ∨ s.isVariable

instance (ss ts : List TypeName) : Decidable (Agree ss ts) :=
  inferInstanceAs (Decidable (∀ s ∈ ss, ∀ t ∈ ts, s.name = t.name → s = t ∨ s.isVariable))

end TypeUnion

open TypeUnion in
/-- What is kept where a union is resolved, given what is made of each name. Of two unions that are
merged before, an alternative of the second is lost just if the first has its spelling. -/
structure KeepsAlternatives (f : TypeUnion → TypeUnion) (g : TypeName → TypeName) : Prop where
  without : ∀ ss ts, f ((ofList ss).merge (ofList ts)) =
    (f (ofList ss)).merge (f ((ofList ts).without (ofList ss)))
  merge : ∀ ss ts, Agree (ofList ss).types (ofList ts).types →
    f ((ofList ss).merge (ofList ts)) = (f (ofList ss)).merge (f (ofList ts))
  names : ∀ ts, Agree ts ts → (f (ofList ts)).names = (ts.map fun t => (g t).name).eraseDups

open TypeUnion in
theorem keepsAlternatives {f : TypeUnion → TypeUnion} {g : TypeName → TypeName}
    (hf : ∀ u, f u = ofList (u.types.map g))
    (hg : ∀ s t : TypeName, s.name = t.name → s.isVariable → (g s).name = (g t).name) :
    KeepsAlternatives f g := by
  have hagree {s t : TypeName} (hname : s.name = t.name) (h : s = t ∨ s.isVariable) :
      (g s).name = (g t).name := by
    rcases h with rfl | hvariable
    · rfl
    · exact hg s t hname hvariable
  constructor
  case without =>
    intro ss ts
    rw [hf, hf, hf, types_merge (nodup_names_ofList ts), List.map_append, ofList_append]
  case merge =>
    intro ss ts h
    have hpush := foldl_push_map g (ofList ts).types (ofList ss) empty fun s hs t ht hname => by
      rcases List.mem_append.1 hs with hs | hs
      · exact hagree hname (h s hs t ht hname)
      · have heq := List.inj_on_of_nodup_map (nodup_names_ofList ts) hs ht hname
        rw [heq]
    rw [hf, hf, hf]
    exact hpush.trans (merge_ofList _ _).symm
  case names =>
    intro ts h
    have hpush := foldl_push_map g ts empty empty fun s hs t ht hname =>
      hagree hname (h s hs t ht hname)
    have hnames : (f (ofList ts)).names = (ofList (ts.map g)).names := by
      rw [hf]
      exact congrArg TypeUnion.names hpush
    rw [hnames, names_ofList, List.map_map]
    rfl

/-! ## Names that differ once they are resolved -/

namespace TypeName

theorem isVariable_congr {s t : TypeName} (h : s.name = t.name) : s.isVariable = t.isVariable :=
  congrArg (Text.startsWith "$") h

theorem resolve_of_isVariable {t : TypeName} (h : t.isVariable) (imports : Imports) :
    t.resolve imports = t := by
  rw [resolve, resolveAs, if_pos (by rw [h, Bool.or_true])]

/-- Whether the name is absolute, or the namespace is put in front of all of it. -/
def Whole (t : TypeName) : Prop :=
  t.absolute = true ∨
    Text.startsWith "\\" t.name = false ∧ Text.startsWith "namespace\\" t.name = false

instance : DecidablePred Whole := fun _ => inferInstanceAs (Decidable (_ ∨ _ ∧ _))

/-- Where nothing is imported a name is put behind the namespace. -/
theorem name_resolve_within {t : TypeName} (h : t.Whole) (segment : String) :
    (t.resolve { Imports.empty with segments := [segment] }).name =
      if t.absolute || t.isVariable then t.name else segment ++ "\\" ++ t.name := by
  rw [resolve, resolveAs]
  split
  · rfl
  next hrelative =>
    have habsolute : ¬ t.absolute = true := fun habsolute => hrelative (by rw [habsolute]; rfl)
    obtain ⟨hlead, hkeyword⟩ := h.resolve_left habsolute
    have hnamespaced : ({ Imports.empty with segments := [segment] } : Imports).namespaced t.name =
        segment ++ "\\" ++ t.name := by
      rw [Imports.namespaced, Imports.trimLead_of_not_startsWith hlead]
      rfl
    show ({ Imports.empty with segments := [segment] } : Imports).absoluteName t.name .class = _
    simp only [Imports.absoluteName, Text.afterLead?_eq_none.2 hlead,
      Text.afterLead?_eq_none.2 hkeyword]
    split
    · exact hnamespaced
    · exact hnamespaced

/-- Two names that resolve alike in a namespace that neither of them lies in are the same name, or
variables. -/
theorem eq_or_isVariable_of_resolve {s t : TypeName} (hs : s.Whole) (ht : t.Whole)
    {segment : String} (houtside : ∀ other, s.name ≠ segment ++ "\\" ++ other)
    (houtside' : ∀ other, t.name ≠ segment ++ "\\" ++ other)
    (h : (s.resolve { Imports.empty with segments := [segment] }).name =
      (t.resolve { Imports.empty with segments := [segment] }).name) :
    s.name = t.name ∧ (s = t ∨ s.isVariable) := by
  have heq (hname : s.name = t.name) (habsolute : s.absolute = t.absolute) : s = t := by
    cases s
    cases t
    exact congr (congrArg TypeName.mk hname) habsolute
  rw [name_resolve_within hs, name_resolve_within ht] at h
  split at h
  next hskept =>
    split at h
    next htkept =>
      simp only [Bool.or_eq_true, ← isVariable_congr h] at hskept htkept
      refine ⟨h, or_iff_not_imp_right.2 fun hnot => heq h ?_⟩
      exact (hskept.resolve_right hnot).trans (htkept.resolve_right hnot).symm
    next => exact absurd h (houtside t.name)
  next hsmoved =>
    split at h
    next => exact absurd h.symm (houtside' s.name)
    next htmoved =>
      have hname := (String.append_right_inj _).1 h
      simp only [Bool.or_eq_true, not_or, Bool.not_eq_true] at hsmoved htmoved
      exact ⟨hname, .inl (heq hname (hsmoved.1.trans htmoved.1.symm))⟩

/-- Some namespace is longer than every name of a list, so that none of them lies in it. -/
theorem exists_segment (ts : List TypeName) :
    ∃ segment : String, ∀ t ∈ ts, ∀ other, t.name ≠ segment ++ "\\" ++ other := by
  refine ⟨String.ofList (List.replicate ((ts.map fun t => t.name.length).sum + 1) 'N'), ?_⟩
  intro t ht other heq
  have hle := List.le_sum_of_mem (List.mem_map_of_mem (f := fun t => t.name.length) ht)
  have hlength := congrArg String.length heq
  simp only [String.length_append, String.length_ofList, List.length_replicate] at hle hlength
  omega

end TypeName

namespace TypeUnion

theorem mem_names_resolve {u : TypeUnion} {imports : Imports} {name : String} :
    name ∈ (u.resolve imports).names ↔ ∃ t ∈ u.types, (t.resolve imports).name = name := by
  rw [resolve, names_ofList, List.mem_eraseDups, List.map_map, List.mem_map]
  rfl

/-- Unions that are merged alike before and after they are resolved, whatever the imports, agree. -/
theorem agree_of_resolve_merge {ss ts : List TypeName} (hwhole : ∀ t ∈ ss ++ ts, t.Whole)
    (h : ∀ imports, ((ofList ss).merge (ofList ts)).resolve imports =
      ((ofList ss).resolve imports).merge ((ofList ts).resolve imports)) :
    Agree (ofList ss).types (ofList ts).types := by
  intro s hs t ht hname
  obtain ⟨segment, houtside⟩ := TypeName.exists_segment (ss ++ ts)
  let imports : Imports := { Imports.empty with segments := [segment] }
  let merged := (ofList ss).merge (ofList ts)
  have htypes : merged.types = (ofList ss).types ++ ((ofList ts).without (ofList ss)).types :=
    types_merge (nodup_names_ofList ts)
  have hmem (u : TypeName) (hu : u ∈ merged.types) : u ∈ ss ++ ts := by
    rw [htypes] at hu
    refine (List.mem_append.1 hu).elim (fun hu => ?_) fun hu => ?_
    · exact List.mem_append_left _ (mem_of_mem_ofList hu)
    · exact List.mem_append_right _ (mem_of_mem_ofList (List.mem_filter.1 hu).1)
  have htmem : t ∈ ss ++ ts := List.mem_append_right _ (mem_of_mem_ofList ht)
  have hsmem : s ∈ merged.types := by
    rw [htypes]
    exact List.mem_append_left _ hs
  -- The second name is not lost, so one that is left resolves alike, which is the first name.
  obtain ⟨u, hu, hresolved⟩ : ∃ u ∈ merged.types, (u.resolve imports).name =
      (t.resolve imports).name := by
    refine mem_names_resolve.1 ?_
    rw [h]
    exact mem_names_foldl_push.2 (.inr (mem_names_resolve.2 ⟨t, ht, rfl⟩))
  obtain ⟨huname, hsame⟩ := TypeName.eq_or_isVariable_of_resolve (hwhole u (hmem u hu))
    (hwhole t htmem) (houtside u (hmem u hu)) (houtside t htmem) hresolved
  obtain rfl := List.inj_on_of_nodup_map
    (nodup_names_foldl_push _ (nodup_names_ofList ss)) hu hsmem (huname.trans hname.symm)
  exact hsame

end TypeUnion

/-! ## Documented types -/

/-- The names in the alternatives of a type in a tag, with all that are spelled twice. -/
def DocComment.written (text : String) : List TypeName :=
  let parts := (alternatives 0 [] text.toList).map (fun p => Text.trimBlank (String.ofList p))
  (parts.filter (fun p => !p.isEmpty)).flatMap typesOfAlternative

theorem DocComment.parseTypes_eq (text : String) : parseTypes text = .ofList (written text) := rfl

/-- Where a union is resolved by imports, or within a document, an alternative is only lost if
another is spelled like it, and this is the weakest condition for names that the namespace is put in
front of. Of a documented type all alternatives are so kept, in the order in which they are first
seen. -/
theorem resolved_alternatives (imports : Imports) (s : Extract.State) (ss ts : List TypeName)
    (text : String) :
    KeepsAlternatives (TypeUnion.resolve · imports) (TypeName.resolve · imports) ∧
    KeepsAlternatives s.resolveTypes s.resolveType ∧
    ((∀ t ∈ ss ++ ts, t.Whole) →
      (∀ imports, ((TypeUnion.ofList ss).merge (.ofList ts)).resolve imports =
        ((TypeUnion.ofList ss).resolve imports).merge ((TypeUnion.ofList ts).resolve imports)) →
      TypeUnion.Agree (TypeUnion.ofList ss).types (TypeUnion.ofList ts).types) ∧
    (TypeUnion.Agree (DocComment.written text) (DocComment.written text) →
      (s.resolveTypes (DocComment.parseTypes text)).names =
        ((DocComment.written text).map fun t => (s.resolveType t).name).eraseDups) := by
  have himports : KeepsAlternatives (TypeUnion.resolve · imports) (TypeName.resolve · imports) := by
    refine keepsAlternatives (fun u => rfl) fun a b hname hvariable => ?_
    rw [TypeName.resolve_of_isVariable hvariable, TypeName.resolve_of_isVariable
      (TypeName.isVariable_congr hname ▸ hvariable), hname]
  have hstate : KeepsAlternatives s.resolveTypes s.resolveType := by
    refine keepsAlternatives (fun u => rfl) fun a b hname hvariable => ?_
    have hkept {t : TypeName} (ht : t.isVariable) : s.resolveType t = t := by
      rw [Extract.State.resolveType, if_pos (by rw [ht, Bool.true_or])]
    rw [hkept hvariable, hkept (TypeName.isVariable_congr hname ▸ hvariable), hname]
  refine ⟨himports, hstate, TypeUnion.agree_of_resolve_merge, fun hagree => ?_⟩
  rw [DocComment.parseTypes_eq]
  exact hstate.names _ hagree

/-- Unions that share a relative name, and a documented type that has it twice. -/
theorem resolved_alternatives_user :
    let ss : List TypeName := [.ofSource "User", .ofSource "int"]
    let ts : List TypeName := [.ofSource "\\Lib\\Box", .ofSource "User"]
    let text := "User|int|\\Lib\\Box|User"
    let s : Extract.State :=
      { Extract.State.start "a.php" "" with imports := Imports.empty.setNamespace "App" }
    ((∀ t ∈ ss ++ ts, t.Whole) ∧
      (∀ imports, ((TypeUnion.ofList ss).merge (.ofList ts)).resolve imports =
        ((TypeUnion.ofList ss).resolve imports).merge ((TypeUnion.ofList ts).resolve imports)) ∧
      TypeUnion.Agree (TypeUnion.ofList ss).types (TypeUnion.ofList ts).types) ∧
    TypeUnion.Agree (DocComment.written text) (DocComment.written text) ∧
    (s.resolveTypes (DocComment.parseTypes text)).names = ["App\\User", "int", "Lib\\Box"] := by
  intro ss ts text s
  have hwhole : ∀ t ∈ ss ++ ts, t.Whole := by decide +kernel
  have hss : TypeUnion.Agree (TypeUnion.ofList ss).types (TypeUnion.ofList ts).types := by
    decide +kernel
  have hlaw (imports : Imports) : ((TypeUnion.ofList ss).merge (.ofList ts)).resolve imports =
      ((TypeUnion.ofList ss).resolve imports).merge ((TypeUnion.ofList ts).resolve imports) :=
    (resolved_alternatives imports s ss ts text).1.merge ss ts hss
  have htext : TypeUnion.Agree (DocComment.written text) (DocComment.written text) := by
    decide +kernel
  have hnames : ((DocComment.written text).map fun t => (s.resolveType t).name).eraseDups =
      ["App\\User", "int", "Lib\\Box"] := by
    decide +kernel
  obtain ⟨-, -, hagree, hdocumented⟩ := resolved_alternatives .empty s ss ts text
  exact ⟨⟨hwhole, hlaw, hagree hwhole hlaw⟩, htext, (hdocumented htext).trans hnames⟩

/-- A class of the namespace and one of no namespace that are spelled alike: the second is lost from
the merged union, and from a documented type. -/
theorem alternative_lost :
    let imports := Imports.empty.setNamespace "App"
    let relative := TypeUnion.ofList [.ofSource "User"]
    let absolute := TypeUnion.ofList [.ofSource "\\User"]
    ((relative.merge absolute).resolve imports).names = ["App\\User"] ∧
    ((relative.resolve imports).merge (absolute.resolve imports)).names = ["App\\User", "User"] ∧
    ((DocComment.parseTypes "User|\\User").resolve imports).names = ["App\\User"] := by
  decide +kernel

end PhpIndex
