import Mathlib.Data.List.Nodup
import PhpIndex.Lookup.Completion
import PhpIndex.Proofs.Store.Queries

/-!
# Listings of members

Members are listed class by class, the nearest class first, and a member hides those of its kind
and name that come after it. So of each kind and name the first member on offer is listed, and no
other. A limit ends the listing after the class that reaches it: what is listed then begins the
listing without a limit.
Main statements: `MemberListing.filter_addAll`, `SymbolSource.cuts_listReceivers`,
`SymbolSource.listsNearest_addAll`.
-/
namespace PhpIndex

namespace MemberListing
variable {wantStatic : Bool} {l : MemberListing} {offers : List (TableKind × Symbol)}

/-- Lists what is on offer, one after the other. -/
def addAll (wantStatic : Bool) (l : MemberListing) (offers : List (TableKind × Symbol)) :
    MemberListing :=
  offers.foldl (fun l o => l.add o.1 wantStatic o.2) l

@[simp] theorem addAll_nil : l.addAll wantStatic [] = l := rfl

@[simp] theorem addAll_cons (o : TableKind × Symbol) :
    l.addAll wantStatic (o :: offers) = (l.add o.1 wantStatic o.2).addAll wantStatic offers := rfl

theorem addAll_append (more : List (TableKind × Symbol)) :
    l.addAll wantStatic (offers ++ more) = (l.addAll wantStatic offers).addAll wantStatic more :=
  List.foldl_append

theorem addAll_map (kind : TableKind) (members : List Symbol) :
    l.addAll wantStatic (members.map fun s => (kind, s)) =
      members.foldl (MemberListing.add kind wantStatic) l :=
  List.foldl_map

theorem found_prefix_add (kind : TableKind) (s : Symbol) :
    l.found <+: (l.add kind wantStatic s).found := by
  rw [add]
  split
  · exact List.prefix_refl _
  · exact List.prefix_append _ _

theorem found_prefix_addAll : l.found <+: (l.addAll wantStatic offers).found := by
  induction offers generalizing l with
  | nil => exact List.prefix_refl _
  | cons o offers ih => exact (found_prefix_add o.1 o.2).trans ih

/-- What is listed has the wanted access, and hides its own kind and name once. -/
structure Kept (wantStatic : Bool) (l : MemberListing) : Prop where
  access : ∀ s ∈ l.found, s.isStatic = wantStatic
  shadowed : l.found.map (fun s => (s.table?, s.name)) = l.shadowed.map fun k => (some k.1, k.2)
  nodup : l.shadowed.Nodup

namespace Kept

theorem empty : Kept wantStatic {} :=
  ⟨fun _ hs => absurd hs List.not_mem_nil, rfl, .nil⟩

theorem add (h : l.Kept wantStatic) {kind : TableKind} {s : Symbol} (hkind : s.table? = some kind) :
    (l.add kind wantStatic s).Kept wantStatic := by
  rw [MemberListing.add]
  split
  next => exact h
  next hnew =>
    simp only [Bool.or_eq_true, bne_iff_ne, ne_eq, decide_eq_true_eq, not_or, not_not] at hnew
    constructor
    case access => exact List.forall_mem_append.2 ⟨h.access, List.forall_mem_singleton.2 hnew.1⟩
    case shadowed => simp [h.shadowed, hkind]
    case nodup => exact by simpa using h.nodup.concat hnew.2

theorem addAll (h : l.Kept wantStatic) (hoffers : ∀ o ∈ offers, o.2.table? = some o.1) :
    (l.addAll wantStatic offers).Kept wantStatic := by
  induction offers generalizing l with
  | nil => exact h
  | cons o offers ih =>
    obtain ⟨ho, hrest⟩ := List.forall_mem_cons.1 hoffers
    exact ih (h.add ho) hrest

/-- No two listed members have the same kind and name. -/
theorem nodup_keys (h : l.Kept wantStatic) : (l.found.map fun s => (s.table?, s.name)).Nodup := by
  rw [h.shadowed]
  refine h.nodup.map fun a b hab => ?_
  simp only [Prod.mk.injEq, Option.some.injEq] at hab
  exact Prod.ext hab.1 hab.2

end Kept

/-- Of each kind and name the first on offer with the wanted access is listed, unless one is listed
already. -/
theorem filter_addAll (hoffers : ∀ o ∈ offers, o.2.table? = some o.1) (kind : TableKind)
    (name : String) :
    (l.addAll wantStatic offers).found.filter (fun s => s.table? = some kind ∧ s.name = name) =
      l.found.filter (fun s => s.table? = some kind ∧ s.name = name) ++
        if (kind, name) ∈ l.shadowed then []
        else (offers.find? fun o =>
          o.2.isStatic = wantStatic ∧ o.1 = kind ∧ o.2.name = name).toList.map Prod.snd := by
  induction offers generalizing l with
  | nil => simp
  | cons o offers ih =>
    have hkind := hoffers o List.mem_cons_self
    rw [addAll_cons, ih fun p hp => hoffers p (List.mem_cons_of_mem o hp)]
    -- What has the other access or is hidden changes nothing, and is not what is looked for.
    by_cases hstatic : o.2.isStatic = wantStatic
    · by_cases hseen : (o.1, o.2.name) ∈ l.shadowed
      · have hadd : l.add o.1 wantStatic o.2 = l := by simp [add, hseen]
        rw [hadd]
        split
        next => rfl
        next hnew =>
          rw [List.find?_cons_of_neg]
          rw [decide_eq_true_eq]
          rintro ⟨-, rfl, rfl⟩
          exact hnew hseen
      · have hadd : l.add o.1 wantStatic o.2 =
            ⟨l.found ++ [o.2], l.shadowed ++ [(o.1, o.2.name)]⟩ := by
          simp [add, hstatic, hseen]
        rw [hadd]
        by_cases hkey : o.1 = kind ∧ o.2.name = name
        · obtain ⟨rfl, rfl⟩ := hkey
          simp [hkind, hseen, hstatic]
        · have hother : ¬ (o.2.table? = some kind ∧ o.2.name = name) := by
            rw [hkind, Option.some.injEq]
            exact hkey
          have hhidden : (kind, name) ∈ l.shadowed ++ [(o.1, o.2.name)] ↔
              (kind, name) ∈ l.shadowed := by
            rw [List.mem_append, List.mem_singleton, Prod.mk.injEq, or_iff_left_iff_imp]
            exact fun heq => absurd ⟨heq.1.symm, heq.2.symm⟩ hkey
          simp only [hhidden, List.filter_append, List.filter_singleton, decide_eq_false hother,
            cond_false, List.append_nil]
          rw [List.find?_cons_of_neg (by simpa using fun _ => hkey)]
    · have hadd : l.add o.1 wantStatic o.2 = l := by simp [add, hstatic]
      simp [hadd, hstatic]

end MemberListing

namespace SymbolSource
variable {source : SymbolSource} {wantStatic : Bool} {keyword owner : String}
  {kinds : List TableKind} {l l' : MemberListing}

/-- What a class offers, kind by kind. -/
def offersOf (source : SymbolSource) (keyword owner : String) :
    List TableKind → Except StoreError (List (TableKind × Symbol))
  | [] => .ok []
  | kind :: more => do
    let members ← source.membersFor kind owner keyword
    let offers ← source.offersOf keyword owner more
    pure (members.map (fun s => (kind, s)) ++ offers)

theorem listOwner_eq_ok (h : source.listOwner wantStatic owner keyword kinds l = .ok l') :
    ∃ offers, source.offersOf keyword owner kinds = .ok offers ∧
      l' = l.addAll wantStatic offers := by
  induction kinds generalizing l with
  | nil => exact ⟨[], rfl, (Except.ok.inj h).symm⟩
  | cons kind more ih =>
    obtain ⟨members, hmembers, hmore⟩ := bind_eq_ok h
    obtain ⟨offers, hoffers, rfl⟩ := ih hmore
    refine ⟨members.map (fun s => (kind, s)) ++ offers, ?_, ?_⟩
    · rw [offersOf, hmembers]
      simp only [bind, Except.bind, hoffers, pure, Except.pure]
    · rw [MemberListing.addAll_append, MemberListing.addAll_map]

theorem mem_offersOf {offers : List (TableKind × Symbol)}
    (h : source.offersOf keyword owner kinds = .ok offers) {kind : TableKind} {s : Symbol} :
    (kind, s) ∈ offers ↔
      kind ∈ kinds ∧
        ∃ members, source.membersFor kind owner keyword = .ok members ∧ s ∈ members := by
  induction kinds generalizing offers with
  | nil =>
    obtain rfl := Except.ok.inj h
    simp
  | cons first more ih =>
    obtain ⟨members, hmembers, hrest⟩ := bind_eq_ok h
    obtain ⟨rest, hoffers, heq⟩ := bind_eq_ok hrest
    obtain rfl := Except.ok.inj heq
    have hfirst : (∃ found, source.membersFor first owner keyword = .ok found ∧ s ∈ found) ↔
        s ∈ members := by
      rw [hmembers]
      exact ⟨fun ⟨_, heq, hs⟩ => Except.ok.inj heq ▸ hs, fun hs => ⟨members, rfl, hs⟩⟩
    rw [List.mem_append, ih hoffers, List.mem_cons, or_and_right]
    refine or_congr_left ?_
    constructor
    · intro hmem
      obtain ⟨t, ht, heq⟩ := List.mem_map.1 hmem
      obtain ⟨rfl, rfl⟩ := Prod.mk.inj heq
      exact ⟨rfl, hfirst.2 ht⟩
    · rintro ⟨rfl, hs⟩
      exact List.mem_map.2 ⟨s, hfirst.1 hs, rfl⟩

/-- The classes that are asked and what they offer. -/
theorem listOwners_eq_ok {limit : Nat} {owners : List String} {full : Bool}
    (h : source.listOwners wantStatic keyword limit kinds owners l = .ok (full, l')) :
    ∃ asked offers, asked <+: owners ∧
      List.Forall₂ (fun owner offers => source.offersOf keyword owner kinds = .ok offers) asked
        offers ∧
      l' = l.addAll wantStatic offers.flatten ∧
      (full = true ∧ limit ≤ l'.found.length ∨ full = false ∧ asked = owners) := by
  induction owners generalizing l with
  | nil =>
    obtain ⟨rfl, rfl⟩ := Prod.mk.inj (Except.ok.inj h)
    exact ⟨[], [], List.prefix_refl _, .nil, rfl, .inr ⟨rfl, rfl⟩⟩
  | cons owner more ih =>
    obtain ⟨l₁, hfirst, hrest⟩ := bind_eq_ok h
    obtain ⟨first, hoffers, rfl⟩ := listOwner_eq_ok hfirst
    split at hrest
    next hfull =>
      obtain ⟨rfl, rfl⟩ := Prod.mk.inj (Except.ok.inj hrest)
      exact ⟨[owner], [first], by simp, .cons hoffers .nil, by simp, .inl ⟨rfl, hfull⟩⟩
    next =>
      obtain ⟨asked, offers, hasked, hall, rfl, hfull⟩ := ih hrest
      refine ⟨owner :: asked, first :: offers, (List.prefix_cons_inj owner).2 hasked,
        .cons hoffers hall, ?_, ?_⟩
      · rw [List.flatten_cons, MemberListing.addAll_append]
      · exact hfull.imp_right fun h => ⟨h.1, by rw [h.2]⟩

theorem listReceivers_eq_ok {limit : Nat} {receivers : List String}
    (h : source.listReceivers wantStatic keyword limit kinds receivers l = .ok l') :
    ∃ asked offers,
      List.Forall₂ (fun owner offers => source.offersOf keyword owner kinds = .ok offers) asked
        offers ∧
      l' = l.addAll wantStatic offers.flatten ∧
      (∀ owner ∈ asked, ∃ receiver ∈ receivers, ∃ chain,
        source.ancestry receiver = .ok chain ∧ owner ∈ chain) ∧
      (limit ≤ l'.found.length ∨
        ∃ chains, receivers.mapM source.ancestry = .ok chains ∧ asked = chains.flatten) := by
  induction receivers generalizing l with
  | nil =>
    exact ⟨[], [], .nil, (Except.ok.inj h).symm, by simp, .inr ⟨[], rfl, rfl⟩⟩
  | cons receiver more ih =>
    obtain ⟨chain, hchain, howners⟩ := bind_eq_ok h
    obtain ⟨⟨full, l₁⟩, hfirst, hrest⟩ := bind_eq_ok howners
    obtain ⟨asked, offers, hasked, hoffers, rfl, hfull⟩ := listOwners_eq_ok hfirst
    have hmet : ∀ owner ∈ asked, ∃ r ∈ receiver :: more, ∃ chain,
        source.ancestry r = .ok chain ∧ owner ∈ chain := fun owner howner =>
      ⟨receiver, List.mem_cons_self, chain, hchain, hasked.subset howner⟩
    rcases hfull with ⟨rfl, hlimit⟩ | ⟨rfl, rfl⟩
    · obtain rfl := Except.ok.inj hrest
      exact ⟨asked, offers, hoffers, rfl, hmet, .inl hlimit⟩
    · obtain ⟨asked', offers', hoffers', rfl, hmet', hend⟩ := ih hrest
      refine ⟨asked ++ asked', offers ++ offers', List.rel_append hoffers hoffers', ?_, ?_, ?_⟩
      · rw [List.flatten_append, MemberListing.addAll_append]
      · refine List.forall_mem_append.2 ⟨hmet, fun owner howner => ?_⟩
        obtain ⟨r, hr, hin⟩ := hmet' owner howner
        exact ⟨r, List.mem_cons_of_mem receiver hr, hin⟩
      · refine hend.imp_right ?_
        rintro ⟨chains, hchains, rfl⟩
        refine ⟨asked :: chains, ?_, rfl⟩
        rw [List.mapM_cons, hchain, hchains]
        rfl

/-! ## Limits -/

/-- A lower limit changes nothing, or it ends the listing at a class up to which as many members
are listed. -/
theorem cuts_listOwners {n m : Nat} (hle : n ≤ m) (owners : List String) (l : MemberListing) :
    source.listOwners wantStatic keyword n kinds owners l =
        source.listOwners wantStatic keyword m kinds owners l ∨
      ∃ l', source.listOwners wantStatic keyword n kinds owners l = .ok (true, l') ∧
        n ≤ l'.found.length ∧ ∀ full l'',
          source.listOwners wantStatic keyword m kinds owners l = .ok (full, l'') →
            l'.found <+: l''.found := by
  induction owners generalizing l with
  | nil => exact .inl rfl
  | cons owner more ih =>
    rw [listOwners, listOwners]
    cases hfirst : source.listOwner wantStatic owner keyword kinds l with
    | error e => exact .inl rfl
    | ok l₁ =>
      simp only [bind, Except.bind]
      by_cases hm : m ≤ l₁.found.length
      · rw [if_pos hm, if_pos (Nat.le_trans hle hm)]
        exact .inl rfl
      · rw [if_neg hm]
        split
        next hn =>
          refine .inr ⟨l₁, rfl, hn, fun full l'' hrun => ?_⟩
          obtain ⟨_, offers, -, -, rfl, -⟩ := listOwners_eq_ok hrun
          exact MemberListing.found_prefix_addAll
        next => exact ih l₁

theorem cuts_listReceivers {n m : Nat} (hle : n ≤ m) (receivers : List String)
    (l : MemberListing) :
    source.listReceivers wantStatic keyword n kinds receivers l =
        source.listReceivers wantStatic keyword m kinds receivers l ∨
      ∃ l', source.listReceivers wantStatic keyword n kinds receivers l = .ok l' ∧
        n ≤ l'.found.length ∧ ∀ l'',
          source.listReceivers wantStatic keyword m kinds receivers l = .ok l'' →
            l'.found <+: l''.found := by
  induction receivers generalizing l with
  | nil => exact .inl rfl
  | cons receiver more ih =>
    rw [listReceivers, listReceivers]
    cases hchain : source.ancestry receiver with
    | error e => exact .inl rfl
    | ok chain =>
      simp only [bind, Except.bind]
      rcases cuts_listOwners hle chain l with heq | ⟨l₁, hcut, hn, hprefix⟩
      · rw [heq]
        cases source.listOwners wantStatic keyword m kinds chain l with
        | error e => exact .inl rfl
        | ok p =>
          obtain ⟨full, l₁⟩ := p
          cases full with
          | true => exact .inl rfl
          | false => exact ih l₁
      · rw [hcut]
        refine .inr ⟨l₁, rfl, hn, fun l'' hrun => ?_⟩
        cases hlong : source.listOwners wantStatic keyword m kinds chain l with
        | error e =>
          rw [hlong] at hrun
          cases hrun
        | ok p =>
          obtain ⟨full, l₂⟩ := p
          have hfirst := hprefix full l₂ hlong
          rw [hlong] at hrun
          cases full with
          | true =>
            obtain rfl := Except.ok.inj hrun
            exact hfirst
          | false =>
            obtain ⟨_, offers, -, rfl, -⟩ := listReceivers_eq_ok hrun
            exact hfirst.trans MemberListing.found_prefix_addAll

/-! ## Errors -/

theorem error_of_bind {x : Except StoreError α} {f : α → Except StoreError β} {e : StoreError}
    (h : x >>= f = .error e) : x = .error e ∨ ∃ a, x = .ok a ∧ f a = .error e := by
  cases x with
  | error e' => exact .inl (congrArg Except.error (Except.error.inj h))
  | ok a => exact .inr ⟨a, rfl, h⟩

theorem error_of_listOwner {e : StoreError}
    (h : source.listOwner wantStatic owner keyword kinds l = .error e) :
    ∃ kind ∈ kinds, source.membersFor kind owner keyword = .error e := by
  induction kinds generalizing l with
  | nil => cases h
  | cons kind more ih =>
    rcases error_of_bind h with herror | ⟨members, -, hmore⟩
    · exact ⟨kind, List.mem_cons_self, herror⟩
    · obtain ⟨k, hk, herror⟩ := ih hmore
      exact ⟨k, List.mem_cons_of_mem kind hk, herror⟩

theorem error_of_listOwners {limit : Nat} {owners : List String} {e : StoreError}
    (h : source.listOwners wantStatic keyword limit kinds owners l = .error e) :
    ∃ owner ∈ owners, ∃ kind ∈ kinds, source.membersFor kind owner keyword = .error e := by
  induction owners generalizing l with
  | nil => cases h
  | cons owner more ih =>
    rcases error_of_bind h with hfirst | ⟨l₁, -, hrest⟩
    · exact ⟨owner, List.mem_cons_self, error_of_listOwner hfirst⟩
    · split at hrest
      · cases hrest
      · obtain ⟨o, ho, herror⟩ := ih hrest
        exact ⟨o, List.mem_cons_of_mem owner ho, herror⟩

/-- A listing fails only where an ancestry or the members of a class in one cannot be read. -/
theorem error_of_listReceivers {limit : Nat} {receivers : List String} {e : StoreError}
    (h : source.listReceivers wantStatic keyword limit kinds receivers l = .error e) :
    ∃ receiver ∈ receivers, source.ancestry receiver = .error e ∨
      ∃ chain, source.ancestry receiver = .ok chain ∧
        ∃ owner ∈ chain, ∃ kind ∈ kinds, source.membersFor kind owner keyword = .error e := by
  induction receivers generalizing l with
  | nil => cases h
  | cons receiver more ih =>
    rcases error_of_bind h with hchain | ⟨chain, hchain, howners⟩
    · exact ⟨receiver, List.mem_cons_self, .inl hchain⟩
    · rcases error_of_bind howners with hmembers | ⟨⟨full, l₁⟩, -, hrest⟩
      · exact ⟨receiver, List.mem_cons_self, .inr ⟨chain, hchain, error_of_listOwners hmembers⟩⟩
      · cases full with
        | true => cases hrest
        | false =>
          obtain ⟨r, hr, herror⟩ := ih hrest
          exact ⟨r, List.mem_cons_of_mem receiver hr, herror⟩

/-! ## Completion of members -/

/-- Whether a source that is asked for the members of a class answers with members of that class
and of the kind asked for. -/
structure AnswersFor (source : SymbolSource) (owner keyword : String) : Prop where
  membersOf : ∀ kind ∈ TableKind.members, ∀ found, source.membersOf kind owner = .ok found →
    ∀ s ∈ found, s.table? = some kind ∧ s.scope? = some owner
  search : ∀ kind ∈ TableKind.members, ∀ found,
    source.search kind owner keyword (UInt64.size - 1) = .ok found →
      ∀ s ∈ found, s.table? = some kind ∧ s.scope? = some owner

/-- Whether a class has a member of this kind and name and of the wanted access, to which the
keyword leads. -/
def Offers (source : SymbolSource) (wantStatic : Bool) (keyword : String) (kind : TableKind)
    (name owner : String) : Prop :=
  ∃ members, source.membersFor kind owner keyword = .ok members ∧
    ∃ s ∈ members, s.isStatic = wantStatic ∧ s.name = name

/-- Whether the list has, for every kind and name that one of the classes offers, one symbol alone,
and that of the first such class. -/
def ListsNearest (source : SymbolSource) (wantStatic : Bool) (keyword : String)
    (owners : List String) (xs : List Symbol) : Prop :=
  ∀ kind ∈ TableKind.members, ∀ name,
    (∃ owner ∈ owners, source.Offers wantStatic keyword kind name owner) →
      ∃ before owner after s, owners = before ++ owner :: after ∧
        source.Offers wantStatic keyword kind name owner ∧
        (∀ nearer ∈ before, ¬ source.Offers wantStatic keyword kind name nearer) ∧
        s.scope? = some owner ∧
        xs.filter (fun s => s.table? = some kind ∧ s.name = name) = [s]

theorem AnswersFor.membersFor (h : source.AnswersFor owner keyword) {kind : TableKind}
    (hkind : kind ∈ TableKind.members) {found : List Symbol}
    (hfound : source.membersFor kind owner keyword = .ok found) {s : Symbol} (hs : s ∈ found) :
    s.table? = some kind ∧ s.scope? = some owner := by
  rw [SymbolSource.membersFor] at hfound
  split at hfound
  · exact h.membersOf kind hkind found hfound s hs
  · exact h.search kind hkind found hfound s hs

/-- The kinds of member that an access can reach. -/
def reachedKinds (wantStatic : Bool) : List TableKind :=
  if wantStatic then TableKind.members else [.methods, .properties]

theorem reachedKinds_subset (wantStatic : Bool) : reachedKinds wantStatic ⊆ TableKind.members := by
  cases wantStatic <;> decide

/-- A class constant is never reached by an arrow. -/
theorem mem_reachedKinds {kind : TableKind} (hkind : kind ∈ TableKind.members) {s : Symbol}
    (hs : s.table? = some kind) (hstatic : s.isStatic = wantStatic) :
    kind ∈ reachedKinds wantStatic := by
  cases wantStatic with
  | true => exact hkind
  | false => cases s <;> cases hs <;> simp_all [Symbol.isStatic, reachedKinds, TableKind.members]

theorem completion_eq {ctx : DocumentContext} {r : Reference} (hmember : r.kind.isMember = true)
    (offset : UInt32) (limit : Nat) :
    source.completion ctx r offset limit =
      (source.listReceivers r.kind.isStaticAccess (typedKeyword r.name r.memberRange? offset) limit
        (reachedKinds r.kind.isStaticAccess) (ctx.receivers r) {}).map fun l =>
          l.found.take limit := by
  have hargument : r.kind ≠ .argumentList := fun h => by rw [h] at hmember; cases hmember
  have hvariable : r.kind ≠ .variable := fun h => by rw [h] at hmember; cases hmember
  rw [completion, if_neg hargument, if_neg hvariable, if_pos hmember, completeMembers, reachedKinds]
  cases source.listReceivers r.kind.isStaticAccess (typedKeyword r.name r.memberRange? offset) limit
    (if r.kind.isStaticAccess then TableKind.members else [.methods, .properties])
    (ctx.receivers r) {} <;> rfl

/-- The first class that offers a member of a kind and name has the first one on offer. -/
theorem find?_offers {owners : List String} {offers : List (List (TableKind × Symbol))}
    {kind : TableKind} (hkind : kind ∈ kinds) {name : String}
    (hall : List.Forall₂ (fun owner offers => source.offersOf keyword owner kinds = .ok offers)
      owners offers)
    (hoffers : ∃ owner ∈ owners, source.Offers wantStatic keyword kind name owner) :
    ∃ before owner after members s, owners = before ++ owner :: after ∧
      source.Offers wantStatic keyword kind name owner ∧
      (∀ nearer ∈ before, ¬ source.Offers wantStatic keyword kind name nearer) ∧
      source.membersFor kind owner keyword = .ok members ∧ s ∈ members ∧
      offers.flatten.find? (fun o =>
        o.2.isStatic = wantStatic ∧ o.1 = kind ∧ o.2.name = name) = some (kind, s) := by
  induction hall with
  | nil => simp at hoffers
  | @cons owner first owners offers hfirst hall ih =>
    rw [List.flatten_cons, List.find?_append]
    cases hfind : first.find? (fun o =>
      o.2.isStatic = wantStatic ∧ o.1 = kind ∧ o.2.name = name) with
    | some o =>
      obtain ⟨kind', s⟩ := o
      have hwanted := List.find?_some hfind
      simp only [decide_eq_true_eq] at hwanted
      obtain ⟨hstatic, rfl, hname⟩ := hwanted
      obtain ⟨-, members, hmembers, hs⟩ := (mem_offersOf hfirst).1 (List.mem_of_find?_eq_some hfind)
      exact ⟨[], owner, owners, members, s, rfl, ⟨members, hmembers, s, hs, hstatic, hname⟩,
        by simp, hmembers, hs, rfl⟩
    | none =>
      have hnot : ¬ source.Offers wantStatic keyword kind name owner := by
        rintro ⟨members, hmembers, s, hs, hstatic, hname⟩
        have hmem := (mem_offersOf hfirst).2 ⟨hkind, members, hmembers, hs⟩
        exact List.find?_eq_none.1 hfind _ hmem (by simp [hstatic, hname])
      obtain ⟨other, hother, hoffer⟩ := hoffers
      rcases List.mem_cons.1 hother with rfl | hother
      · exact absurd hoffer hnot
      · obtain ⟨before, nearest, after, members, s, rfl, hrest, hbefore, hmembers, hs, hfound⟩ :=
          ih ⟨other, hother, hoffer⟩
        exact ⟨owner :: before, nearest, after, members, s, rfl, hrest,
          List.forall_mem_cons.2 ⟨hnot, hbefore⟩, hmembers, hs, hfound⟩

/-- What classes offer that answer with their members alone. -/
theorem table?_of_offers {owners : List String} {offers : List (List (TableKind × Symbol))}
    (hanswers : ∀ owner ∈ owners, source.AnswersFor owner keyword)
    (hoffers : List.Forall₂ (fun owner offers =>
      source.offersOf keyword owner (reachedKinds wantStatic) = .ok offers) owners offers) :
    ∀ o ∈ offers.flatten, o.2.table? = some o.1 := by
  rintro ⟨kind, s⟩ ho
  obtain ⟨first, hfirst, ho⟩ := List.mem_flatten.1 ho
  obtain ⟨owner, howner, heq⟩ := exists_left_of_forall₂ hoffers hfirst
  obtain ⟨hkind, members, hmembers, hs⟩ := (mem_offersOf heq).1 ho
  exact ((hanswers owner howner).membersFor (reachedKinds_subset _ hkind) hmembers hs).1

/-- Listing all that classes offer lists the nearest of each kind and name. -/
theorem listsNearest_addAll {owners : List String} {offers : List (List (TableKind × Symbol))}
    (hanswers : ∀ owner ∈ owners, source.AnswersFor owner keyword)
    (hoffers : List.Forall₂ (fun owner offers =>
      source.offersOf keyword owner (reachedKinds wantStatic) = .ok offers) owners offers) :
    source.ListsNearest wantStatic keyword owners
      (MemberListing.addAll wantStatic {} offers.flatten).found := by
  intro kind hkind name hoffer
  have hreached : kind ∈ reachedKinds wantStatic := by
    obtain ⟨owner, howner, members, hmembers, s, hs, hstatic, -⟩ := hoffer
    exact mem_reachedKinds hkind ((hanswers owner howner).membersFor hkind hmembers hs).1 hstatic
  obtain ⟨before, owner, after, members, s, rfl, howner, hbefore, hmembers, hs, hfind⟩ :=
    find?_offers hreached hoffers hoffer
  have hscope := ((hanswers owner (by simp)).membersFor hkind hmembers hs).2
  refine ⟨before, owner, after, s, rfl, howner, hbefore, hscope, ?_⟩
  rw [MemberListing.filter_addAll (table?_of_offers hanswers hoffers), hfind]
  rfl

section Completion
variable {ctx : DocumentContext} {r : Reference} (hmember : r.kind.isMember = true)
  {offset : UInt32}
include hmember

/-- Under a lower limit as many symbols come as it allows, and no error that did not come before. -/
theorem completion_take {n m : Nat} (hle : n ≤ m) :
    (∀ xs, source.completion ctx r offset m = .ok xs →
      source.completion ctx r offset n = .ok (xs.take n)) ∧
    ∀ e, source.completion ctx r offset n = .error e →
      source.completion ctx r offset m = .error e := by
  simp only [completion_eq hmember]
  rcases cuts_listReceivers hle (ctx.receivers r) {} with
    heq | ⟨l', hcut, hn, hprefix⟩
  · rw [heq]
    cases source.listReceivers r.kind.isStaticAccess _ m _ (ctx.receivers r) {} with
    | error e => exact ⟨fun xs h => (by cases h), fun e' h => h⟩
    | ok l =>
      refine ⟨fun xs h => ?_, fun e h => by cases h⟩
      obtain rfl := Except.ok.inj h
      rw [List.take_take, Nat.min_eq_left hle]
      rfl
  · rw [hcut]
    refine ⟨fun xs h => ?_, fun e h => by cases h⟩
    obtain ⟨l'', hlong, rfl⟩ := map_eq_ok h
    obtain ⟨more, hmore⟩ := hprefix l'' hlong
    rw [List.take_take, Nat.min_eq_left hle, ← hmore, List.take_append_of_le_length hn]
    rfl

theorem error_of_completion {limit : Nat} {e : StoreError}
    (h : source.completion ctx r offset limit = .error e) :
    ∃ receiver ∈ ctx.receivers r, source.ancestry receiver = .error e ∨
      ∃ chain, source.ancestry receiver = .ok chain ∧ ∃ owner ∈ chain,
        ∃ kind ∈ TableKind.members, source.membersFor kind owner
          (typedKeyword r.name r.memberRange? offset) = .error e := by
  rw [completion_eq hmember] at h
  cases hrun : source.listReceivers r.kind.isStaticAccess
      (typedKeyword r.name r.memberRange? offset) limit (reachedKinds r.kind.isStaticAccess)
      (ctx.receivers r) {} with
  | ok l =>
    rw [hrun] at h
    cases h
  | error e' =>
    rw [hrun] at h
    obtain rfl := Except.error.inj h
    obtain ⟨receiver, hreceiver, herror⟩ := error_of_listReceivers hrun
    refine ⟨receiver, hreceiver, herror.imp_right ?_⟩
    rintro ⟨chain, hchain, owner, howner, kind, hkind, herror⟩
    exact ⟨chain, hchain, owner, howner, kind, reachedKinds_subset _ hkind, herror⟩

end Completion

/-- A source of some symbols, which it lists in this order. -/
def ofSymbols (symbols : List Symbol) : SymbolSource where
  classBound := symbols.length
  find kind name := .ok (symbols.filter fun s => s.table? = some kind ∧ s.indexName = name)
  membersOf kind owner :=
    .ok (symbols.filter fun s => s.table? = some kind ∧ s.scope? = some owner)
  search kind owner keyword limit :=
    .ok ((symbols.filter fun s => (s.table? = some kind ∧ s.scope? = some owner) ∧
      Text.startsWith keyword s.name).take limit)

theorem answersFor_ofSymbols (symbols : List Symbol) (owner keyword : String) :
    (ofSymbols symbols).AnswersFor owner keyword where
  membersOf kind _ found hfound s hs := by
    obtain rfl := Except.ok.inj hfound
    simpa using (List.mem_filter.1 hs).2
  search kind _ found hfound s hs := by
    obtain rfl := Except.ok.inj hfound
    have hkept := (List.mem_filter.1 (List.mem_of_mem_take hs)).2
    rw [decide_eq_true_eq] at hkept
    exact hkept.1

end SymbolSource
end PhpIndex
