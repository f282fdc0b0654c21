import PhpIndex.Lookup.Completion
import PhpIndex.Lookup.Help
import PhpIndex.Proofs.Lookup.Ancestry
import PhpIndex.Proofs.Store.Keys
import PhpIndex.Proofs.Symbol.Candidates
import Mathlib.Data.List.Forall2

/-!
# Sources that answer alike

Two sources of symbols may have the same symbols in two forms, such as the one in which they were
read and the one in which they were stored. If a form keeps all that a symbol is listed, shown and
inherited by, everything that is looked up in the one source is found in the other in its form.
Main statements: `SymbolSource.Alike.definition`, `SymbolSource.Alike.signatureHelp_eq`,
`SymbolSource.exists_hover`, `SymbolSource.completeMembers_alike`.
-/
namespace PhpIndex

/-- Whether a form of the known symbols tells them apart and keeps what they are listed, shown and
inherited by. -/
structure Symbol.KeptBy (f : Symbol → Symbol) (known : Symbol → Prop) : Prop where
  inj : ∀ s t, known s → known t → f s = f t → s = t
  location : ∀ s, known s → (f s).location = s.location
  name : ∀ s, known s → (f s).name = s.name
  isStatic : ∀ s, known s → (f s).isStatic = s.isStatic
  label : ∀ s, known s → (f s).label = s.label
  description : ∀ s, known s → (f s).description? = s.description?
  info : ∀ s, known s → SignatureInfo.ofSymbol? (f s) = SignatureInfo.ofSymbol? s
  supertypes : ∀ s, known s →
    (f s).classDecl?.map ClassDecl.supertypes = s.classDecl?.map ClassDecl.supertypes

/-- Whether an answer gives known symbols, and another one gives the same in their form. -/
def Shows (f : Symbol → Symbol) (known : Symbol → Prop)
    (answer other : Except StoreError (List Symbol)) : Prop :=
  ∃ found, answer = .ok found ∧ other = .ok (found.map f) ∧ ∀ s ∈ found, known s

namespace Shows
variable {f : Symbol → Symbol} {known : Symbol → Prop}

theorem nil : Shows f known (.ok []) (.ok []) := ⟨[], rfl, rfl, List.forall_mem_nil _⟩

theorem mapM {g h : α → Except StoreError (List Symbol)} {l : List α}
    (hall : ∀ a ∈ l, Shows f known (g a) (h a)) :
    ∃ hits, l.mapM g = .ok hits ∧ l.mapM h = .ok (hits.map (List.map f)) ∧
      ∀ s ∈ hits.flatten, known s := by
  induction l with
  | nil => exact ⟨[], rfl, rfl, List.forall_mem_nil _⟩
  | cons a rest ih =>
    obtain ⟨found, hg, hh, hknown⟩ := hall a List.mem_cons_self
    obtain ⟨hits, hgs, hhs, hrest⟩ := ih fun b hb => hall b (List.mem_cons_of_mem a hb)
    refine ⟨found :: hits, ?_, ?_, ?_⟩
    · rw [List.mapM_cons, hg, hgs]
      rfl
    · rw [List.mapM_cons, hh, hhs]
      rfl
    · rw [List.flatten_cons]
      exact List.forall_mem_append.2 ⟨hknown, hrest⟩

/-- What was found for several names is merged alike. -/
theorem candidates (hkept : Symbol.KeptBy f known) {symbols : List Symbol}
    (h : ∀ s ∈ symbols, known s) :
    Shows f known (.ok (Symbol.candidates symbols)) (.ok (Symbol.candidates (symbols.map f))) := by
  refine ⟨_, rfl, congrArg Except.ok (Symbol.candidates_map ?_ ?_), fun s hs =>
    h s (Symbol.mem_candidates.1 hs)⟩
  · intro a ha b hb
    exact (Symbol.listedBefore_congr (hkept.location a (h a ha)) (hkept.name a (h a ha))
      (hkept.location b (h b hb)) (hkept.name b (h b hb))).symm
  · exact fun a ha b hb => hkept.inj a b (h a ha) (h b hb)

theorem mapM_candidates (hkept : Symbol.KeptBy f known)
    {g h : α → Except StoreError (List Symbol)} {l : List α}
    (hall : ∀ a ∈ l, Shows f known (g a) (h a)) :
    Shows f known (do let hits ← l.mapM g; pure (Symbol.candidates hits.flatten))
      (do let hits ← l.mapM h; pure (Symbol.candidates hits.flatten)) := by
  obtain ⟨hits, hg, hh, hknown⟩ := mapM hall
  rw [hg, hh]
  have hshows := candidates hkept hknown
  rw [List.map_flatten] at hshows
  exact hshows

end Shows

namespace SymbolSource

/-- Whether no more names of classes are found than the source has room for. -/
def Bounded (source : SymbolSource) : Prop :=
  ∃ names : List String, (∀ name, source.find .classes name ≠ .ok [] → name ∈ names) ∧
    names.length ≤ source.classBound

/-- A bounded source finds the ancestry of every class. -/
theorem exists_ancestry {source : SymbolSource} (h : source.Bounded) {up : String → List String}
    (hup : ∀ name, source.supertypes name = .ok (up name)) (name : String) :
    ∃ chain, source.ancestry name = .ok chain ∧ Climbs up [] [name] chain := by
  obtain ⟨names, hnames, hbound⟩ := h
  refine ancestry_climbs hup (fun n hn => hnames n fun hnil => hn ?_) hbound name
  have hsupertypes := hup n
  rw [supertypes, hnil] at hsupertypes
  exact (Except.ok.inj hsupertypes).symm

/-- Whether the second source answers the same symbols as the first one in their form. -/
structure Alike (f : Symbol → Symbol) (known : Symbol → Prop) (a b : SymbolSource) : Prop where
  kept : Symbol.KeptBy f known
  find : ∀ kind name, Shows f known (a.find kind name) (b.find kind name)
  bounded : a.Bounded
  bounded' : b.Bounded

namespace Alike
variable {f : Symbol → Symbol} {known : Symbol → Prop} {a b : SymbolSource}
  (h : a.Alike f known b)
include h

theorem supertypes (name : String) :
    ∃ parents found, a.supertypes name = .ok parents ∧ b.supertypes name = .ok parents ∧
      a.find .classes name = .ok found ∧
      parents = (found.filterMap Symbol.classDecl?).flatMap ClassDecl.supertypes := by
  obtain ⟨found, hfind, hfind', hknown⟩ := h.find .classes name
  refine ⟨_, found, by rw [SymbolSource.supertypes, hfind]; rfl, ?_, hfind, rfl⟩
  rw [SymbolSource.supertypes, hfind']
  refine congrArg Except.ok ?_
  have hall (symbols : List Symbol) :
      (symbols.filterMap Symbol.classDecl?).flatMap ClassDecl.supertypes =
        (symbols.filterMap fun s => s.classDecl?.map ClassDecl.supertypes).flatten := by
    rw [List.flatMap_def, List.map_filterMap]
  rw [hall, hall, List.filterMap_map]
  refine congrArg List.flatten (List.filterMap_congr fun s hs => ?_)
  exact h.kept.supertypes s (hknown s hs)

/-- Both sources find the same ancestors, which are the class and supertypes of what is found. -/
theorem ancestry (name : String) : ∃ chain, a.ancestry name = .ok chain ∧
    b.ancestry name = .ok chain ∧ ∀ P : String → Prop, P name →
      (∀ n found, a.find .classes n = .ok found → ∀ s ∈ found, ∀ c ∈ s.classDecl?,
        ∀ parent ∈ c.supertypes, P parent) → ∀ n ∈ chain, P n := by
  choose up found hup hup' hfind hparents using h.supertypes
  obtain ⟨chain, hrun, hclimbs⟩ := exists_ancestry h.bounded hup name
  obtain ⟨chain', hrun', hclimbs'⟩ := exists_ancestry h.bounded' hup' name
  obtain rfl := hclimbs.unique hclimbs'
  refine ⟨chain, hrun, hrun', fun P hname hall => ?_⟩
  refine hclimbs.forall_mem (fun n _ parent hparent => ?_) (List.forall_mem_nil _)
    (List.forall_mem_singleton.2 hname)
  rw [hparents, List.mem_flatMap] at hparent
  obtain ⟨c, hc, hparent⟩ := hparent
  obtain ⟨s, hs, hdecl⟩ := List.mem_filterMap.1 hc
  exact hall n (found n) (hfind n) s hs c hdecl parent hparent

theorem findName (ctx : DocumentContext) (kind : TableKind) (t : TypeName) :
    Shows f known (a.findName ctx kind t) (b.findName ctx kind t) := by
  obtain ⟨found, hfind, hfind', hknown⟩ :=
    h.find kind (t.resolveAs ctx.imports kind.importKind).name
  simp only [SymbolSource.findName, hfind, hfind', bind, Except.bind, List.isEmpty_map]
  split
  · exact h.find kind _
  · exact ⟨found, rfl, rfl, hknown⟩

theorem findTopLevel (ctx : DocumentContext) (r : Reference) (kind : TableKind) :
    Shows f known (a.findTopLevel ctx r kind) (b.findTopLevel ctx r kind) :=
  Shows.mapM_candidates h.kept fun t _ => h.findName ctx kind t

theorem findNearest (kinds : List TableKind) (member : String) (chain : List String) :
    Shows f known (a.findNearest kinds member chain) (b.findNearest kinds member chain) := by
  induction chain with
  | nil => exact .nil
  | cons owner more ih =>
    obtain ⟨hits, hfind, hfind', hknown⟩ :=
      Shows.mapM (l := kinds) fun kind _ => h.find kind (memberKey owner member)
    simp only [SymbolSource.findNearest, hfind, hfind', bind, Except.bind, ← List.map_flatten,
      List.isEmpty_map]
    split
    · exact ih
    · exact ⟨_, rfl, rfl, hknown⟩

theorem findMembers (ctx : DocumentContext) (r : Reference) (kinds : List TableKind) :
    Shows f known (a.findMembers ctx r kinds) (b.findMembers ctx r kinds) := by
  unfold SymbolSource.findMembers
  split
  · exact .nil
  · refine Shows.mapM_candidates h.kept fun owner _ => ?_
    obtain ⟨chain, hrun, hrun', -⟩ := h.ancestry owner
    rw [hrun, hrun']
    exact h.findNearest kinds r.name chain

theorem findCallee (ctx : DocumentContext) (call : Reference) :
    Shows f known (a.findCallee ctx call) (b.findCallee ctx call) := by
  unfold SymbolSource.findCallee
  split
  · exact h.findMembers ctx call _
  · exact h.findTopLevel ctx call _

/-- What a reference means is found in both sources. Variables are looked up in neither. -/
theorem definition (ctx : DocumentContext) {r : Reference} (hr : r.kind ≠ .variable) :
    Shows f known (a.definition ctx r) (b.definition ctx r) := by
  unfold SymbolSource.definition
  cases hkind : r.kind with
  | «variable» => exact absurd hkind hr
  | function => exact h.findTopLevel ctx r _
  | constantAccess => exact h.findTopLevel ctx r _
  | className => exact h.findTopLevel ctx r _
  | newOperand => exact h.findTopLevel ctx r _
  | staticMethod => exact h.findMembers ctx r _
  | methodCall => exact h.findMembers ctx r _
  | staticProperty => exact h.findMembers ctx r _
  | propertyAccess => exact h.findMembers ctx r _
  | classConstant => exact h.findMembers ctx r _
  | scopedAccess => exact h.findMembers ctx r _
  | argumentList => exact h.findCallee ctx r

theorem signatureHelp_eq (ctx : DocumentContext) (call : Reference) (offset : UInt32) :
    ∃ help?, a.signatureHelp ctx call offset = .ok help? ∧
      b.signatureHelp ctx call offset = .ok help? := by
  obtain ⟨found, hrun, hrun', hknown⟩ := h.findCallee ctx call
  have hinfo : (found.map f).filterMap SignatureInfo.ofSymbol? =
      found.filterMap SignatureInfo.ofSymbol? := by
    rw [List.filterMap_map]
    exact List.filterMap_congr fun s hs => h.kept.info s (hknown s hs)
  simp only [signatureHelp, hrun, hrun', bind, Except.bind, hinfo]
  cases found.filterMap SignatureInfo.ofSymbol? with
  | nil => exact ⟨none, rfl, rfl⟩
  | cons first more => exact ⟨_, rfl, rfl⟩

end Alike
end SymbolSource

/-- The same is shown of symbols in two forms, if both have the same labels and descriptions. -/
theorem SymbolSource.exists_hover {f : Symbol → Symbol} {a b : SymbolSource}
    {ctx ctx' : DocumentContext} {r r' : Reference} {found : List Symbol}
    (hrun : a.definition ctx r = .ok found) (hrun' : b.definition ctx' r' = .ok (found.map f))
    (hlabel : ∀ s ∈ found, (f s).label = s.label)
    (hdescription : ∀ s ∈ found, (f s).description? = s.description?)
    (hrange : r'.range? = r.range?) :
    ∃ hover?, a.hover ctx r = .ok hover? ∧ b.hover ctx' r' = .ok hover? := by
  simp only [hover, hrun, hrun', bind, Except.bind, List.isEmpty_map, List.map_map, hrange]
  split
  · exact ⟨none, rfl, rfl⟩
  · refine ⟨_, rfl, ?_⟩
    refine congrArg (fun sections => Except.ok (some (Hover.mk (Text.joinWith _ sections) _))) ?_
    refine List.map_congr_left fun s hs => ?_
    rw [Function.comp_apply, hlabel s hs, hdescription s hs]

/-! ## Completion -/

/-- The listing with another form of its symbols. -/
def MemberListing.inForm (f : Symbol → Symbol) (l : MemberListing) : MemberListing :=
  { l with found := l.found.map f }

namespace SymbolSource
variable {f : Symbol → Symbol} {known : Symbol → Prop} {a b : SymbolSource}
  (wantStatic : Bool) {keyword : String} {kinds : List TableKind} {listable : String → Prop}

/-- Whether members of the listable classes are listed alike. -/
def ListsAlike (f : Symbol → Symbol) (known : Symbol → Prop) (a b : SymbolSource)
    (kinds : List TableKind) (keyword : String) (listable : String → Prop) : Prop :=
  ∀ kind ∈ kinds, ∀ owner, listable owner →
    Shows f known (a.membersFor kind owner keyword) (b.membersFor kind owner keyword)

theorem foldl_add_inForm (hkept : Symbol.KeptBy f known) (kind : TableKind) {members : List Symbol}
    (hmembers : ∀ s ∈ members, known s) (l : MemberListing) :
    (members.map f).foldl (MemberListing.add kind wantStatic) (l.inForm f) =
      (members.foldl (MemberListing.add kind wantStatic) l).inForm f := by
  induction members generalizing l with
  | nil => rfl
  | cons s rest ih =>
    obtain ⟨hs, hrest⟩ := List.forall_mem_cons.1 hmembers
    have hadd : MemberListing.add kind wantStatic (l.inForm f) (f s) =
        (MemberListing.add kind wantStatic l s).inForm f := by
      simp only [MemberListing.add, MemberListing.inForm, hkept.isStatic s hs, hkept.name s hs]
      split
      · rfl
      · rw [List.map_append]
        rfl
    rw [List.map_cons, List.foldl_cons, hadd, ih hrest, List.foldl_cons]

theorem ListsAlike.listOwner (h : ListsAlike f known a b kinds keyword listable)
    (hkept : Symbol.KeptBy f known) {owner : String} (howner : listable owner)
    (l : MemberListing) :
    ∃ l', a.listOwner wantStatic owner keyword kinds l = .ok l' ∧
      b.listOwner wantStatic owner keyword kinds (l.inForm f) = .ok (l'.inForm f) := by
  induction kinds generalizing l with
  | nil => exact ⟨l, rfl, rfl⟩
  | cons kind more ih =>
    obtain ⟨members, hrun, hrun', hknown⟩ := h kind List.mem_cons_self owner howner
    obtain ⟨l', hmore, hmore'⟩ := ih (fun k hk => h k (List.mem_cons_of_mem kind hk))
      (members.foldl (MemberListing.add kind wantStatic) l)
    refine ⟨l', ?_, ?_⟩
    · rw [SymbolSource.listOwner, hrun]
      exact hmore
    · rw [SymbolSource.listOwner, hrun']
      refine Eq.trans ?_ hmore'
      rw [← foldl_add_inForm wantStatic hkept kind hknown]
      rfl

theorem ListsAlike.listOwners (h : ListsAlike f known a b kinds keyword listable)
    (hkept : Symbol.KeptBy f known) (limit : Nat) {owners : List String}
    (howners : ∀ owner ∈ owners, listable owner) (l : MemberListing) :
    ∃ full l', a.listOwners wantStatic keyword limit kinds owners l = .ok (full, l') ∧
      b.listOwners wantStatic keyword limit kinds owners (l.inForm f) =
        .ok (full, l'.inForm f) := by
  induction owners generalizing l with
  | nil => exact ⟨false, l, rfl, rfl⟩
  | cons owner more ih =>
    obtain ⟨howner, hmore⟩ := List.forall_mem_cons.1 howners
    obtain ⟨l', hrun, hrun'⟩ := h.listOwner wantStatic hkept howner l
    have hlength : (l'.inForm f).found.length = l'.found.length := List.length_map f
    simp only [SymbolSource.listOwners, hrun, hrun', bind, Except.bind, hlength]
    split
    · exact ⟨true, l', rfl, rfl⟩
    · exact ih hmore l'

/-- The ancestries of the receivers are listed alike, if all of their classes are listable. -/
theorem ListsAlike.listReceivers (h : ListsAlike f known a b kinds keyword listable)
    (halike : a.Alike f known b) (limit : Nat)
    (hup : ∀ name found, a.find .classes name = .ok found → ∀ s ∈ found, ∀ c ∈ s.classDecl?,
      ∀ parent ∈ c.supertypes, listable parent)
    {receivers : List String} (hreceivers : ∀ r ∈ receivers, listable r) (l : MemberListing) :
    ∃ l', a.listReceivers wantStatic keyword limit kinds receivers l = .ok l' ∧
      b.listReceivers wantStatic keyword limit kinds receivers (l.inForm f) =
        .ok (l'.inForm f) := by
  induction receivers generalizing l with
  | nil => exact ⟨l, rfl, rfl⟩
  | cons receiver more ih =>
    obtain ⟨hreceiver, hmore⟩ := List.forall_mem_cons.1 hreceivers
    obtain ⟨chain, hchain, hchain', hall⟩ := halike.ancestry receiver
    obtain ⟨full, l', hrun, hrun'⟩ := h.listOwners wantStatic halike.kept limit
      (hall listable hreceiver hup) l
    simp only [SymbolSource.listReceivers, hchain, hchain', hrun, hrun', bind, Except.bind]
    split
    · exact ⟨l', rfl, rfl⟩
    · exact ih hmore l'

/-- The tables in which members are looked up for completion. -/
def completedKinds (r : Reference) : List TableKind :=
  if r.kind.isStaticAccess then TableKind.members else [.methods, .properties]

theorem completeMembers_alike (halike : a.Alike f known b) {ctx : DocumentContext} {r : Reference}
    (h : ListsAlike f known a b (completedKinds r) keyword listable)
    (hup : ∀ name found, a.find .classes name = .ok found → ∀ s ∈ found, ∀ c ∈ s.classDecl?,
      ∀ parent ∈ c.supertypes, listable parent)
    (hreceivers : ∀ n ∈ ctx.receivers r, listable n) (limit : Nat) :
    ∃ found, a.completeMembers ctx r keyword limit = .ok found ∧
      b.completeMembers ctx r keyword limit = .ok (found.map f) := by
  obtain ⟨l, hrun, hrun'⟩ := h.listReceivers r.kind.isStaticAccess halike limit hup hreceivers {}
  unfold completedKinds at hrun hrun'
  have hempty : MemberListing.inForm f {} = {} := rfl
  rw [hempty] at hrun'
  refine ⟨l.found, ?_, ?_⟩
  · simp only [completeMembers, hrun, bind, Except.bind, pure, Except.pure]
  · simp only [completeMembers, hrun', bind, Except.bind, pure, Except.pure]
    rfl

variable {source : SymbolSource} {ctx : DocumentContext} {r : Reference}

theorem completion_of_variable (h : r.kind = .variable) (offset : UInt32) (limit : Nat) :
    source.completion ctx r offset limit =
      .ok ((ctx.completeVariables r (typedKeyword r.name r.range? offset)).take limit) := by
  rw [completion, if_neg (by rw [h]; decide), if_pos h]
  rfl

theorem completion_of_member (h : r.kind.isMember) (offset : UInt32) (limit : Nat) :
    source.completion ctx r offset limit =
      (source.completeMembers ctx r (typedKeyword r.name r.memberRange? offset) limit).map
        (List.take limit) := by
  have hne (kind : ReferenceKind) (hkind : ¬ kind.isMember) : r.kind ≠ kind := by
    rintro rfl
    exact hkind h
  rw [completion, if_neg (hne .argumentList (by decide)), if_neg (hne .variable (by decide)),
    if_pos h]
  rfl

end SymbolSource

/-- What was typed of a name is a part of it. -/
theorem nulFree_typedKeyword {name : String} (h : NulFree name) (written? : Option Range)
    (offset : UInt32) : NulFree (typedKeyword name written? offset) := by
  have htake (n : Nat) (l : List Char) : Chars.takeBytes n l ⊆ l := by
    induction l generalizing n with
    | nil => exact List.Subset.refl []
    | cons c rest ih =>
      unfold Chars.takeBytes
      split
      · exact List.cons_subset_cons c (ih _)
      · exact List.nil_subset _
  unfold typedKeyword
  split
  · decide
  · split
    · unfold NulFree Text.takeBytes
      rw [String.toList_ofList]
      exact fun hmem => h (htake _ _ hmem)
    · decide

end PhpIndex
