import PhpIndex.Proofs.Index.Ranges
import PhpIndex.Proofs.Index.Replacement

/-!
# Positions

Storing the references of a document makes the index answer at every offset what the document
itself answers, whatever else the store holds: all rows under the name of the document go, and
those of the references take their place.
Main statement: `positions_agree`.
-/
namespace PhpIndex

/-! ## Stored and opened documents -/

/-- Whether the reference has its place in some document, at offsets that keys hold. -/
def Reference.Placed (r : Reference) : Prop :=
  ∃ uri range, r.location = .of uri range ∧ range.Keyed

/-- What the rows of a store answer at the offsets of a document. -/
structure PositionsAgree (d : Document) (uri : String) (rows : Rows) : Prop where
  decoded : ∀ r ∈ d.references, ofRecord (toRecord r) = .ok r.normal
  referenceAt : ∀ offset : UInt32, offset.toNat < 0x80000000 →
    (Index.referenceAt uri offset).run rows = .ok ((d.referenceAt offset).map Reference.normal)
  callAt : ∀ offset : UInt32, offset.toNat < 0x80000000 →
    (Index.callAt uri offset).run rows = .ok ((d.callAt offset).map Reference.normal)
  /-- No reference is nearer than the one that is answered. -/
  innermost : ∀ offset accept r, d.innermost offset accept = some r →
    (r ∈ d.references ∧ accept r ∧ r.location.contains offset) ∧
      ∀ r' ∈ d.references, accept r' → r'.location.contains offset →
        ∀ range ∈ r.range?, ∀ range' ∈ r'.range?, range.encloses range' → range' = range

namespace Range

/-- A range inside another one is the nearer one. -/
theorem eq_of_encloses {range range' : Range} (h : range.encloses range')
    (hle : range.innerness ≤ range'.innerness) : range' = range := by
  simp only [encloses, Bool.and_eq_true, decide_eq_true_eq, UInt32.le_iff_toNat_le] at h
  have hstart := range.start.toNat_lt
  have hstart' := range'.start.toNat_lt
  simp only [innerness] at hle
  have hstop : range.stop.toNat ≤ range'.stop.toNat := by
    by_contra hlt
    have hmul : (range'.stop.toNat + 1) * UInt32.size ≤ range.stop.toNat * UInt32.size :=
      Nat.mul_le_mul_right _ (by omega)
    simp only [UInt32.size] at hmul hle
    omega
  have hsame : range'.stop.toNat = range.stop.toNat := by omega
  rw [hsame] at hle
  simp only [UInt32.size] at hle
  have hsame' : range'.start.toNat = range.start.toNat := by omega
  exact congrArg₂ Range.mk (UInt32.toNat_inj.1 hsame') (UInt32.toNat_inj.1 hsame)

end Range

namespace Document
variable {d : Document}

theorem innerness_eq {r : Reference} {range : Range} (h : r.range? = some range) :
    innerness r = range.innerness := by
  simp only [innerness, h]
  rfl

theorem innermost_least {offset : UInt32} {accept : Reference → Bool} {r : Reference}
    (h : d.innermost offset accept = some r) :
    (r ∈ d.references ∧ accept r ∧ r.location.contains offset) ∧
      ∀ r' ∈ d.references, accept r' → r'.location.contains offset →
        ∀ range ∈ r.range?, ∀ range' ∈ r'.range?, range.encloses range' → range' = range := by
  have hmem := mem_of_leastBy h
  simp only [List.mem_filter, Bool.and_eq_true] at hmem
  refine ⟨⟨hmem.1, hmem.2.2, hmem.2.1⟩, fun r' hr' haccept hcontains range hrange range' hrange'
    hencloses => Range.eq_of_encloses hencloses ?_⟩
  have hmem' : r' ∈ d.references.filter fun r => r.location.contains offset && accept r :=
    List.mem_filter.2 ⟨hr', by rw [hcontains, haccept]; rfl⟩
  have hle := le_of_leastBy h hmem'
  rwa [innerness_eq hrange, innerness_eq hrange'] at hle

end Document

namespace Version
variable {v : Version}

/-- References that all have their place are stored one for one. -/
theorem snd_located (h : ∀ r ∈ v.references, r.Placed) :
    v.located.map Prod.snd = v.references := by
  rw [located, List.map_filterMap]
  refine (List.filterMap_congr fun r hr => ?_).trans List.filterMap_some
  obtain ⟨uri, range, hlocation, -⟩ := h r hr
  simp [Reference.range?, hlocation, Location.of, Location.isEmpty]

theorem keyed_located (h : ∀ r ∈ v.references, r.Placed) : ∀ e ∈ v.located, e.1.Keyed := by
  intro e he
  obtain ⟨hmem, hrange⟩ := mem_located he
  obtain ⟨uri, range, hlocation, hkeyed⟩ := h e.2 hmem
  rw [Reference.range?, hlocation] at hrange
  exact Option.some.inj hrange ▸ hkeyed

/-- The innermost of the stored references is the one of the document. -/
theorem innermost_located {d : Document} (hd : d.references = v.references)
    (h : ∀ r ∈ v.references, r.Placed) (offset : UInt32) {accept : Reference → Bool}
    (haccept : ∀ r : Reference, accept r.normal = accept r) :
    (leastBy (fun e => e.1.innerness) (v.located.filter fun e =>
      e.1.contains offset && accept e.2.normal)).map (fun e => e.2.normal) =
        (d.innermost offset accept).map Reference.normal := by
  have hrange {e : Range × Reference} (he : e ∈ v.located) : e.2.range? = some e.1 :=
    (mem_located he).2
  let around := v.located.filter fun e => e.2.location.contains offset && accept e.2
  have hfilter : (v.located.filter fun e => e.1.contains offset && accept e.2.normal) =
      around := by
    refine List.filter_congr fun e he => ?_
    have hlocation : e.2.location.range? = some e.1 := hrange he
    rw [haccept, Location.contains, hlocation]
    rfl
  have hleast : leastBy (fun e => e.1.innerness) around =
      leastBy (fun e => Document.innerness e.2) around :=
    leastBy_congr fun e he => (Document.innerness_eq (hrange (List.mem_of_mem_filter he))).symm
  rw [hfilter, hleast, Document.innermost, hd, ← snd_located h, List.filter_map, leastBy_map,
    Option.map_map]
  rfl

end Version

/-- A store that took up the references of a document answers at every offset as the document
does, for any other contents of the store and any references that keys and records can hold. It
takes them up whatever was stored before. -/
theorem positions_agree {d : Document} (hfits : ∀ r ∈ d.references, r.Fits)
    (hplaced : ∀ r ∈ d.references, r.Placed) (hfew : d.references.length < 0x80000000)
    (record : DocumentRecord) (symbols : List Symbol) (scopes : List VariableScope) :
    (∀ s s' : Store, s.replaceDocument record symbols d.references scopes = .ok s' →
      PositionsAgree d record.uri s'.rows) ∧
    ∀ ops s, (∀ op ∈ ops, op.Fits) → Store.volatile.runAll ops = .ok s →
      ∃ s', s.replaceDocument record symbols d.references scopes = .ok s' := by
  let v : Version := ⟨record, symbols, d.references, scopes⟩
  refine ⟨fun s s' hrun => ?agree, fun ops s hops hrun => ?takes⟩
  case takes => exact (Rows.Legible.empty.runAll (s := .volatile) hops hrun).exists_run_replace v
  case agree =>
    have hfew' : v.located.length ≤ 0x80000000 :=
      Nat.le_trans (List.length_filterMap_le _ _) (Nat.le_of_lt hfew)
    have hstores : referenceTable.Stores s'.rows v.uri v.located Reference.normal :=
      .of_version (p := .references) rfl
        (fun k hk => Store.get?_led (v := v) (p := .references) hrun hk) v.enters_references
        (Version.keyed_located hplaced) hfew'
        fun e he => ofRecord_reference (hfits e.2 (Version.mem_located he).1)
    have hfind (offset : UInt32) (hoffset : offset.toNat < 0x80000000)
        (accept : Reference → Bool) (haccept : ∀ r : Reference, accept r.normal = accept r) :
        (referenceTable.findWhere record.uri offset accept).run s'.rows =
          .ok ((d.innermost offset accept).map Reference.normal) :=
      (hstores.run_findWhere hoffset accept).trans
        (congrArg Except.ok (Version.innermost_located (v := v) rfl hplaced offset haccept))
    constructor
    case decoded => exact fun r hr => ofRecord_reference (hfits r hr)
    case referenceAt => exact fun offset hoffset => hfind offset hoffset _ fun _ => rfl
    case callAt => exact fun offset hoffset => hfind offset hoffset _ fun _ => rfl
    case innermost => exact fun offset accept r h => Document.innermost_least h

/-- A reference from one offset to another. -/
def spanning (kind : ReferenceKind) (name : String) (start stop : UInt32) : Reference :=
  { kind, types := ⟨[.verbatim name]⟩, location := .of "a" ⟨start, stop⟩ }

/-- A call with two equal ranges in its arguments and one that ends before it starts. -/
theorem positions_agree_nested :
    let call := spanning .argumentList "f" 0 9
    let first := spanning .variable "$x" 3 5
    let d : Document :=
      { imports := .empty, globals := .empty .empty, scopes := [], symbols := [],
        references := [call, first, spanning .className "C" 3 5, spanning .function "g" 8 2],
        uri := "a", text := "", modified := 0 }
    ∃ s, Store.volatile.replaceDocument (d.record 0) [] d.references [] = .ok s ∧
      (Index.referenceAt "a" 5).run s.rows = .ok (some first) ∧
      (Index.callAt "a" 5).run s.rows = .ok (some call) ∧
      (Index.referenceAt "a" 10).run s.rows = .ok none := by
  intro call first d
  have hplaced : ∀ r ∈ d.references, r.Placed := by
    have hspanning (kind : ReferenceKind) (name : String) (start stop : UInt32)
        (hstart : start.toNat < 0x80000000) (hstop : stop.toNat < 0x80000000) :
        (spanning kind name start stop).Placed := ⟨"a", ⟨start, stop⟩, rfl, hstart, hstop⟩
    intro r hr
    simp only [d, List.mem_cons, List.not_mem_nil, or_false] at hr
    rcases hr with rfl | rfl | rfl | rfl <;> exact hspanning _ _ _ _ (by decide) (by decide)
  obtain ⟨hagree, htakes⟩ := positions_agree (d := d) (by decide) hplaced (by decide)
    (d.record 0) [] []
  obtain ⟨s, hrun⟩ := htakes [] .volatile nofun rfl
  have h := hagree .volatile s hrun
  refine ⟨s, hrun, (h.referenceAt 5 (by decide)).trans ?_, (h.callAt 5 (by decide)).trans ?_,
    (h.referenceAt 10 (by decide)).trans ?_⟩
  · exact congrArg Except.ok (by decide)
  · exact congrArg Except.ok (by decide)
  · exact congrArg Except.ok (by decide)

end PhpIndex
