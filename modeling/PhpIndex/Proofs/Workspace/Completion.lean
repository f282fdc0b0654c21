import PhpIndex.Proofs.Lookup.Ancestry
import PhpIndex.Proofs.Lookup.Listing
import PhpIndex.Proofs.Workspace.Sources

/-!
# Completion of members

What is listed behind an arrow or a double colon, over any source of symbols that answers for the
classes it is asked about: a list of symbols, the index, or the index behind open documents.
Main statement: `SymbolSource.completion_listed`.
-/
namespace PhpIndex

namespace SymbolSource

/-- On one class, members are listed along its ancestry. -/
theorem completion_of_receivers {source : SymbolSource} {ctx : DocumentContext} {r : Reference}
    {owner : String} {chain : List String} (hmember : r.kind.isMember = true)
    (howner : ctx.receivers r = [owner]) (hchain : source.ancestry owner = .ok chain)
    (offset : UInt32) (limit : Nat) :
    source.completion ctx r offset limit =
      (source.listOwners r.kind.isStaticAccess (typedKeyword r.name r.memberRange? offset) limit
        (reachedKinds r.kind.isStaticAccess) chain {}).map fun p => p.2.found.take limit := by
  rw [completion_eq hmember, howner, listReceivers, hchain]
  simp only [bind, Except.bind, listReceivers]
  cases source.listOwners r.kind.isStaticAccess (typedKeyword r.name r.memberRange? offset) limit
    (reachedKinds r.kind.isStaticAccess) chain {} with
  | error e => rfl
  | ok p =>
    obtain ⟨full, l⟩ := p
    cases full <;> rfl

/-- Completion of a member lists a beginning of one list, whatever the limit. On it are members of
the access alone, of each kind and name one at most, and where the limit leaves room, for every
kind and name that a class on the way up offers the one of the nearest such class. It fails only
where a class on the way up cannot be read. -/
theorem completion_listed (source : SymbolSource) (ctx : DocumentContext) (r : Reference)
    (hmember : r.kind.isMember = true) (offset : UInt32)
    (hsource : ∀ receiver ∈ ctx.receivers r, ∀ chain, source.ancestry receiver = .ok chain →
      ∀ owner ∈ chain, source.AnswersFor owner (typedKeyword r.name r.memberRange? offset)) :
    (∀ n ≤ UInt64.size - 1,
      (∀ xs, source.completion ctx r offset (UInt64.size - 1) = .ok xs →
        source.completion ctx r offset n = .ok (xs.take n)) ∧
      ∀ e, source.completion ctx r offset n = .error e →
        source.completion ctx r offset (UInt64.size - 1) = .error e) ∧
    (∀ n e, source.completion ctx r offset n = .error e →
      ∃ receiver ∈ ctx.receivers r, source.ancestry receiver = .error e ∨
        ∃ chain, source.ancestry receiver = .ok chain ∧ ∃ owner ∈ chain,
          ∃ kind ∈ TableKind.members, source.membersFor kind owner
            (typedKeyword r.name r.memberRange? offset) = .error e) ∧
    ∀ n xs, source.completion ctx r offset n = .ok xs →
      (∀ s ∈ xs, s.isStatic = r.kind.isStaticAccess) ∧
      (xs.map fun s => (s.table?, s.name)).Nodup ∧
      (xs.length < n → ∃ chains, (ctx.receivers r).mapM source.ancestry = .ok chains ∧
        source.ListsNearest r.kind.isStaticAccess (typedKeyword r.name r.memberRange? offset)
          chains.flatten xs) := by
  refine ⟨fun n hn => completion_take hmember hn, fun n e => error_of_completion hmember,
    fun n xs hxs => ?_⟩
  rw [completion_eq hmember] at hxs
  obtain ⟨l, hrun, rfl⟩ := map_eq_ok hxs
  obtain ⟨asked, offers, hoffers, rfl, hmet, hend⟩ := listReceivers_eq_ok hrun
  have hanswers : ∀ owner ∈ asked, source.AnswersFor owner
      (typedKeyword r.name r.memberRange? offset) := fun owner howner => by
    obtain ⟨receiver, hreceiver, chain, hchain, hmem⟩ := hmet owner howner
    exact hsource receiver hreceiver chain hchain owner hmem
  have htables := table?_of_offers hanswers hoffers
  have hkept : (MemberListing.addAll r.kind.isStaticAccess {} offers.flatten).Kept
      r.kind.isStaticAccess := .addAll .empty htables
  have htake := List.take_sublist n
    (MemberListing.addAll r.kind.isStaticAccess {} offers.flatten).found
  refine ⟨fun s hs => hkept.access s (htake.subset hs), hkept.nodup_keys.sublist (htake.map _),
    fun hroom => ?_⟩
  have hshort :
      (MemberListing.addAll r.kind.isStaticAccess {} offers.flatten).found.length < n := by
    rw [List.length_take] at hroom
    omega
  obtain ⟨chains, hchains, rfl⟩ := hend.resolve_left (Nat.not_le_of_lt hshort)
  rw [List.take_of_length_le (Nat.le_of_lt hshort)]
  exact ⟨chains, hchains, listsNearest_addAll hanswers hoffers⟩

/-- An arrow on a box: what the box hides of its parent is not listed, nor what is static. The
parent is known to a list of symbols and in an open document, but not to the index alone. -/
theorem completion_listed_inherited :
    let declare (uri name : String) (parents : List String) : Symbol :=
      .classLike { sort := .class, name, location := .of uri ⟨1, 2⟩, parents }
    let method (uri owner name : String) (modifiers : Modifiers) : Symbol :=
      .method ⟨name, owner, .of uri ⟨3, 4⟩, modifiers, {}, .empty, none⟩
    let get := method "a.php" "Box" "get" {}
    let set := method "b.php" "Base" "set" {}
    let box := [declare "a.php" "Box" ["Base"], get]
    let base := [declare "b.php" "Base" [], set]
    let hidden :=
      [method "c.php" "Base" "get" {}, method "c.php" "Base" "make" { isStatic := true }]
    let ctx := DocumentContext.empty "a.php"
    let r : Reference := { kind := .methodCall, types := .empty, location := .empty,
                           scope? := some (.single (.ofAbsolute "Box")) }
    let Completes (source : SymbolSource) (xs : List Symbol) : Prop :=
      (∀ receiver ∈ ctx.receivers r, ∀ chain, source.ancestry receiver = .ok chain →
        ∀ owner ∈ chain, source.AnswersFor owner (typedKeyword r.name r.memberRange? 0)) ∧
      source.completion ctx r 0 (UInt64.size - 1) = .ok xs ∧
      source.completion ctx r 0 1 = .ok (xs.take 1) ∧
      ∃ chains, (ctx.receivers r).mapM source.ancestry = .ok chains ∧
        source.ListsNearest false "" chains.flatten xs
    r.kind.isMember = true ∧ Completes (ofSymbols (box ++ base ++ hidden)) [get, set] ∧
      ∃ s, Store.volatile.runAll [.replace (.ofSymbols "a.php" box)] = .ok s ∧
        Completes (OpenDocuments.source .empty s.rows) [get] ∧
        Completes ((OpenDocuments.opening .empty (.ofSymbols "b.php" base)).source s.rows)
          [get, set] := by
  intro declare method get set box base hidden ctx r Completes
  have hmember : r.kind.isMember = true := rfl
  have hreceivers : ctx.receivers r = ["Box"] := by decide +kernel
  have hlisted (source : SymbolSource) (xs : List Symbol)
      (hbox : source.supertypes "Box" = .ok ["Base"]) (hbase : source.supertypes "Base" = .ok [])
      (hbound : source.classBound ≠ 0)
      (hanswers : ∀ owner ∈ ["Box", "Base"],
        source.AnswersFor owner (typedKeyword r.name r.memberRange? 0))
      (hrun : (source.listOwners false "" (UInt64.size - 1) [.methods, .properties]
        ["Box", "Base"] {}).map (fun p => p.2.found.take (UInt64.size - 1)) = .ok xs)
      (hshort : xs.length < UInt64.size - 1) : Completes source xs := by
    have hchain := ancestry_of_parent hbox (by decide) hbase hbound
    have hsource : ∀ receiver ∈ ctx.receivers r, ∀ chain, source.ancestry receiver = .ok chain →
        ∀ owner ∈ chain, source.AnswersFor owner (typedKeyword r.name r.memberRange? 0) := by
      rw [hreceivers, List.forall_mem_singleton]
      intro chain hrun owner howner
      rw [hchain] at hrun
      cases hrun
      exact hanswers owner howner
    have hfound : source.completion ctx r 0 (UInt64.size - 1) = .ok xs :=
      (completion_of_receivers hmember hreceivers hchain 0 _).trans hrun
    obtain ⟨hcuts, -, hlists⟩ := completion_listed source ctx r hmember 0 hsource
    exact ⟨hsource, hfound, (hcuts 1 (by decide)).1 xs hfound, (hlists _ xs hfound).2.2 hshort⟩
  have hbox : Completes (ofSymbols (box ++ base ++ hidden)) [get, set] :=
    hlisted _ _ (by decide +kernel) (by decide +kernel) (by decide +kernel)
      (fun owner _ => answersFor_ofSymbols _ owner _) (by decide +kernel) (by decide)
  let ops := [Operation.replace (.ofSymbols "a.php" box)]
  let s : Store := (Store.volatile.runAll ops).toOption.getD .volatile
  have hops : ∀ op ∈ ops, op.Valid ∧ op.Located ∧ op.NamesFit := by decide
  have hstore : Store.volatile.runAll ops = .ok s ∧ Holds s.rows (lastVersion ops) := by
    obtain ⟨t, hrun, h⟩ := Holds.runAll (s := .volatile) Holds.empty fun op hop => (hops op hop).1
    have hs : s = t := congrArg (fun run => run.toOption.getD .volatile) hrun
    exact hs ▸ ⟨hrun, h⟩
  have hanswers (o : OpenDocuments) (ho : o.Valid)
      (hroom : s.rows.size + o.declared < UInt64.size) : ∀ owner ∈ ["Box", "Base"],
        (o.source s.rows).AnswersFor owner (typedKeyword r.name r.memberRange? 0) := by
    have hname : ∀ owner ∈ ["Box", "Base"], NulFree owner ∧ AtFree owner := by decide
    exact fun owner howner => OpenDocuments.answersFor_source hstore.2
      (fun uri v hv => located_of_lastVersion (fun op hop => (hops op hop).2.1) hv)
      (fun uri v hv => (hops _ (replace_mem_of_lastVersion hv)).2.2) ho (hname owner howner).1
      (hname owner howner).2 (by decide) hroom
  have hnone : OpenDocuments.Valid .empty := ⟨nofun, nofun⟩
  have hopen : (OpenDocuments.opening .empty (.ofSymbols "b.php" base)).Valid :=
    hnone.opening (by decide) (by decide)
  refine ⟨hmember, hbox, s, hstore.1, ?_, ?_⟩
  · exact hlisted _ _ (by decide +kernel) (by decide +kernel) (by decide +kernel)
      (hanswers _ hnone (by decide +kernel)) (by decide +kernel) (by decide)
  · exact hlisted _ _ (by decide +kernel) (by decide +kernel) (by decide +kernel)
      (hanswers _ hopen (by decide +kernel)) (by decide +kernel) (by decide)

end SymbolSource
end PhpIndex
