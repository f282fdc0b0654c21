import PhpIndex.Disk.Basic
import PhpIndex.Proofs.Store.Keys
import Mathlib.Tactic.SplitIfs

/-!
# Canonical paths

A path is followed through directories and links, and the names of the place at its end are one path
to the same place without detours. What holds of all places is shown of a single name, of the names
in front of a link and, by induction on the links that may still be read, of a whole path. To make
directories changes nothing of what was there, so that all paths that led to a place still lead to
it.
Main statements: `Disk.Invariant.follow`, `Disk.lookup_canonical`, `Disk.mem_of_mem_canonical`,
`Disk.extends_makeDirectories`, `Disk.lookup_of_extends`.
-/
namespace PhpIndex

namespace Disk
variable {d d' : Disk} {at_ names place : List String} {name path : String} {entry : DiskEntry}
  {target : LinkTarget} {passage : Passage} {links : Nat}

theorem entry?_eq_some : d.entry? place = some entry ↔ d.node? place = some (.entry entry) := by
  unfold entry?
  split <;> simp_all

theorem link?_eq_some : d.link? place = some target ↔ d.node? place = some (.link target) := by
  unfold link?
  split <;> simp_all

theorem link?_of_entry? (h : d.entry? place = some entry) : d.link? place = none := by
  rw [link?, entry?_eq_some.1 h]

theorem mem_entries_of_link? (h : d.link? place = some target) :
    ∃ path, (path, .link target) ∈ d.entries.entries := by
  have hnode := link?_eq_some.1 h
  unfold node? at hnode
  split_ifs at hnode
  · cases hnode
  · exact ⟨_, OrderedMap.mem_entries_of_lookup hnode⟩

/-! ## One name after the other -/

/-- Whether a name is that of an entry, and not of the directory itself or the one above. -/
structure IsPlain (name : String) : Prop where
  ne_stay : ¬ (name.isEmpty ∨ name = ".")
  ne_back : name ≠ ".."
  short : name.utf8ByteSize ≤ nameLimit

/-- How a name is followed from a directory, with names behind it. -/
inductive Step (d : Disk) (at_ : List String) (name : String) (rest : List String) :
    Passage → Prop
  | stay {passage : Passage} (hname : name.isEmpty ∨ name = ".")
      (hrest : d.walk at_ rest = .ok passage) : Step d at_ name rest passage
  | back {passage : Passage} (hname : name = "..")
      (hrest : d.walk at_.dropLast rest = .ok passage) : Step d at_ name rest passage
  | on {passage : Passage} (hname : IsPlain name) (hlink : d.link? (at_ ++ [name]) = none)
      (hrest : d.walk (at_ ++ [name]) rest = .ok passage) : Step d at_ name rest passage
  | link {target : LinkTarget} (hname : IsPlain name)
      (hlink : d.link? (at_ ++ [name]) = some target) :
      Step d at_ name rest (.link at_ target rest)

theorem walk_cons_eq_ok {rest : List String} : d.walk at_ (name :: rest) = .ok passage ↔
    (∃ modified, d.entry? at_ = some (.directory modified)) ∧ d.Step at_ name rest passage := by
  rw [walk]
  constructor
  · intro h
    split at h
    · cases h
    · cases h
    next modified hentry =>
      refine ⟨⟨modified, hentry⟩, ?_⟩
      split_ifs at h with hstay hback hlong
      · exact .stay hstay h
      · exact .back hback h
      have hname : IsPlain name := ⟨hstay, hback, Nat.le_of_not_lt hlong⟩
      split at h
      next target hlink =>
        cases h
        exact .link hname hlink
      next hlink => exact .on hname hlink h
  · rintro ⟨⟨modified, hentry⟩, hstep⟩
    rw [hentry]
    cases hstep with
    | stay hname hrest => rwa [if_pos hname]
    | back hname hrest =>
      subst hname
      exact hrest
    | on hname hlink hrest =>
      rw [if_neg hname.ne_stay, if_neg hname.ne_back, if_neg (Nat.not_lt.2 hname.short), hlink]
      exact hrest
    | link hname hlink =>
      rw [if_neg hname.ne_stay, if_neg hname.ne_back, if_neg (Nat.not_lt.2 hname.short), hlink]

theorem follow_eq_ok : d.follow links at_ names = .ok place ↔
    d.walk at_ names = .ok (.place place) ∨
      ∃ left directory target rest, links = left + 1 ∧
        d.walk at_ names = .ok (.link directory target rest) ∧
        d.follow left (target.start directory) (target.names ++ rest) = .ok place := by
  rw [follow.eq_def]
  constructor
  · intro h
    split at h
    · cases h
    next hwalk =>
      cases h
      exact .inl hwalk
    · cases h
    next directory target rest left hwalk =>
      exact .inr ⟨left, directory, target, rest, rfl, hwalk, h⟩
  · rintro (hwalk | ⟨left, directory, target, rest, rfl, hwalk, hfollow⟩)
    · rw [hwalk]
    · rw [hwalk]
      exact hfollow

/-! ## What holds of all places -/

/-- Whether `I` holds of every place to which names with `P` lead. -/
structure Invariant (d : Disk) (P : String → Prop) (I : List String → Prop) : Prop where
  root : I []
  back : ∀ {at_ : List String}, I at_ → I at_.dropLast
  on : ∀ {at_ : List String} {name : String}, I at_ → P name → IsPlain name →
    (∃ modified, d.entry? at_ = some (.directory modified)) → d.link? (at_ ++ [name]) = none →
    I (at_ ++ [name])
  links : ∀ {place : List String} {target : LinkTarget}, d.link? place = some target →
    ∀ name ∈ target.names, P name

section Invariant
variable {P : String → Prop} {I : List String → Prop}

/-- Whether `I` holds of the place, or of that in front of a link and `P` of the names left. -/
def Passage.Fits (d : Disk) (P : String → Prop) (I : List String → Prop) : Passage → Prop
  | .place place => I place
  | .link directory target rest => I directory ∧ (∃ place, d.link? place = some target) ∧
      ∀ name ∈ rest, P name

theorem Invariant.walk (h : d.Invariant P I) (hat : I at_) (hnames : ∀ name ∈ names, P name)
    (hwalk : d.walk at_ names = .ok passage) : passage.Fits d P I := by
  induction names generalizing at_ with
  | nil =>
    cases hwalk
    exact hat
  | cons name rest ih =>
    obtain ⟨hname, hrest⟩ := List.forall_mem_cons.1 hnames
    obtain ⟨hdirectory, hstep⟩ := walk_cons_eq_ok.1 hwalk
    cases hstep with
    | stay _ hwalk => exact ih hat hrest hwalk
    | back _ hwalk => exact ih (h.back hat) hrest hwalk
    | on hplain hlink hwalk => exact ih (h.on hat hname hplain hdirectory hlink) hrest hwalk
    | link _ hlink => exact ⟨hat, ⟨_, hlink⟩, hrest⟩

theorem Invariant.follow (h : d.Invariant P I) (hat : I at_) (hnames : ∀ name ∈ names, P name)
    (hfollow : d.follow links at_ names = .ok place) : I place := by
  induction links generalizing at_ names with
  | zero =>
    rcases follow_eq_ok.1 hfollow with hwalk | ⟨left, -, -, -, hleft, -⟩
    · exact h.walk hat hnames hwalk
    · cases hleft
  | succ links ih =>
    rcases follow_eq_ok.1 hfollow with hwalk | ⟨left, directory, target, rest, hleft, hwalk, hon⟩
    · exact h.walk hat hnames hwalk
    obtain ⟨hdirectory, ⟨at', hlink⟩, hrest⟩ := h.walk hat hnames hwalk
    cases hleft
    refine ih ?_ (List.forall_mem_append.2 ⟨h.links hlink, hrest⟩) hon
    rw [LinkTarget.start]
    split_ifs
    · exact h.root
    · exact hdirectory

end Invariant

/-- Whether an entry may have the name. -/
structure IsName (name : String) : Prop extends IsPlain name where
  slashFree : '/' ∉ name.toList
  nulFree : NulFree name

/-- Whether the names lead through directories, from that of all files, and not to a link. -/
structure Reaches (d : Disk) (place : List String) : Prop where
  named : ∀ name ∈ place, IsName name
  above : ∀ front name, front ++ [name] <+: place →
    ∃ modified, d.entry? front = some (.directory modified)
  unlinked : d.link? place = none

theorem Reaches.nil : d.Reaches [] where
  named := List.forall_mem_nil _
  above _ name h :=
    absurd (List.prefix_nil.1 h) (List.append_ne_nil_of_right_ne_nil _ (List.cons_ne_nil name []))
  unlinked := rfl

theorem Reaches.dropLast (h : d.Reaches at_) : d.Reaches at_.dropLast where
  named name hname := h.named name ((List.dropLast_sublist at_).subset hname)
  above front name hfront := h.above front name (hfront.trans (List.dropLast_prefix at_))
  unlinked := by
    by_cases hat : at_ = []
    · subst hat
      rfl
    · obtain ⟨modified, hentry⟩ := h.above at_.dropLast (at_.getLast hat)
        ⟨[], by rw [List.append_nil, List.dropLast_concat_getLast]⟩
      exact link?_of_entry? hentry

theorem Reaches.concat (h : d.Reaches at_) (hname : IsName name)
    (hat : ∃ modified, d.entry? at_ = some (.directory modified))
    (hlink : d.link? (at_ ++ [name]) = none) : d.Reaches (at_ ++ [name]) where
  named := List.forall_mem_append.2 ⟨h.named, List.forall_mem_singleton.2 hname⟩
  above front last hfront := by
    rcases List.prefix_concat_iff.1 hfront with heq | hbefore
    · obtain ⟨rfl, -⟩ := List.append_inj' heq rfl
      exact hat
    · exact h.above front last hbefore
  unlinked := hlink

theorem mem_names {c : Char} (hname : name ∈ target.names) (hc : c ∈ name.toList) :
    c ∈ target.path.toList :=
  Chars.subset_of_mem_splitAll (Text.toList_mem_splitAll hname) hc

/-- Names that are followed from a place that is reached reach another. -/
theorem invariant_reaches (d : Disk) :
    d.Invariant (fun name => '/' ∉ name.toList ∧ NulFree name) d.Reaches where
  root := .nil
  back := .dropLast
  on hat hpiece hplain hdirectory hlink :=
    hat.concat ⟨hplain, hpiece.1, hpiece.2⟩ hdirectory hlink
  links {_ target} _ _ hname :=
    ⟨Chars.not_mem_of_mem_splitAll (Text.toList_mem_splitAll hname),
      fun hzero => target.nulFree (mem_names hname hzero)⟩

/-- The names of a place that is reached lead there from any place on the way. -/
theorem walk_of_reaches (h : d.Reaches (at_ ++ names)) :
    d.walk at_ names = .ok (.place (at_ ++ names)) := by
  induction names generalizing at_ with
  | nil => rw [List.append_nil, walk]
  | cons name rest ih =>
    have hname := (h.named name (by simp)).toIsPlain
    have hlink : d.link? (at_ ++ [name]) = none := by
      cases rest with
      | nil => exact h.unlinked
      | cons next rest =>
        obtain ⟨modified, hentry⟩ := h.above (at_ ++ [name]) next ⟨rest, by simp⟩
        exact link?_of_entry? hentry
    refine walk_cons_eq_ok.2 ⟨h.above at_ name ⟨rest, by simp⟩, .on hname hlink ?_⟩
    rw [List.append_cons at_ name rest] at h ⊢
    exact ih h

/-! ## Lookup -/

theorem resolve_eq_ok : d.resolve path = .ok place ↔ NulFree path ∧ Path.isAbsolute path = true ∧
    d.follow linkLimit [] (Text.splitAll '/' path) = .ok place := by
  unfold resolve
  split_ifs with hzero habsolute
  · exact ⟨nofun, fun h => absurd hzero h.1⟩
  · exact ⟨fun h => ⟨hzero, habsolute, h⟩, fun h => h.2.2⟩
  · exact ⟨nofun, fun h => absurd h.2.1 habsolute⟩

theorem lookup_eq_ok : d.lookup path = .ok (place, entry) ↔
    d.resolve path = .ok place ∧ d.entry? place = some entry := by
  unfold lookup
  cases d.resolve path with
  | error fault => exact ⟨nofun, nofun⟩
  | ok segments =>
    simp only [bind, Except.bind]
    constructor
    · intro h
      split at h
      next found hfound =>
        cases h
        exact ⟨rfl, hfound⟩
      · cases h
    · rintro ⟨hplace, hentry⟩
      cases hplace
      rw [hentry]

theorem canonical_eq_ok {p : String} : d.canonical path = .ok p ↔
    ∃ place entry, d.lookup path = .ok (place, entry) ∧ Path.ofSegments place = p := by
  unfold canonical
  cases d.lookup path with
  | error fault => exact ⟨nofun, nofun⟩
  | ok found =>
    obtain ⟨place, entry⟩ := found
    simp [Except.map]

theorem reaches_of_resolve (h : d.resolve path = .ok place) : d.Reaches place := by
  obtain ⟨hnul, -, hfollow⟩ := resolve_eq_ok.1 h
  refine (invariant_reaches d).follow .nil (fun name hname => ?_) hfollow
  have hpiece := Text.toList_mem_splitAll hname
  exact ⟨Chars.not_mem_of_mem_splitAll hpiece,
    fun hzero => hnul (Chars.subset_of_mem_splitAll hpiece hzero)⟩

end Disk

namespace Path

theorem isAbsolute_ofSegments (place : List String) : isAbsolute (ofSegments place) = true := by
  rw [isAbsolute, Text.startsWith, ofSegments, String.toList_append]
  exact List.isPrefixOf_iff_prefix.2 (List.prefix_append _ _)

theorem join_of_isAbsolute {path : String} (h : isAbsolute path = true) (directory : String) :
    join directory path = path := by
  rw [join, h, Bool.true_or, if_pos rfl]

end Path

namespace Disk
variable {d d' : Disk} {place : List String} {path p : String} {entry : DiskEntry}

/-- The names of a place, behind the empty one in front of the first slash. -/
theorem splitAll_ofSegments (hplace : place ≠ []) (hslash : ∀ name ∈ place, '/' ∉ name.toList) :
    Text.splitAll '/' (Path.ofSegments place) = "" :: place := by
  have hlead : Path.ofSegments place = Text.joinWith "/" ("" :: place) := by
    obtain ⟨name, rest, rfl⟩ := List.exists_cons_of_ne_nil hplace
    rw [Path.ofSegments, Text.joinWith, Text.joinWith]
    simp [String.intercalate_cons_cons]
  rw [hlead]
  exact Text.splitAll_joinWith rfl (List.cons_ne_nil _ _)
    (List.forall_mem_cons.2 ⟨List.not_mem_nil, hslash⟩)

theorem nulFree_ofSegments (hnul : ∀ name ∈ place, NulFree name) :
    NulFree (Path.ofSegments place) := by
  intro hzero
  rw [Path.ofSegments, String.toList_append, List.mem_append] at hzero
  rcases hzero with hslash | hrest
  · exact absurd hslash (by decide)
  rcases Text.mem_joinWith hrest with hslash | ⟨name, hname, hmem⟩
  · exact absurd hslash (by decide)
  · exact hnul name hname hmem

/-- A place that is reached has a path of its own. -/
theorem resolve_ofSegments (h : d.Reaches place) :
    d.resolve (Path.ofSegments place) = .ok place := by
  refine resolve_eq_ok.2 ⟨nulFree_ofSegments fun name hname => (h.named name hname).nulFree,
    Path.isAbsolute_ofSegments place, ?_⟩
  have hroot : d.walk [] ("" :: place) = .ok (.place place) :=
    walk_cons_eq_ok.2 ⟨⟨0, rfl⟩, .stay (.inl rfl) (walk_of_reaches h)⟩
  refine follow_eq_ok.2 (.inl ?_)
  by_cases hplace : place = []
  · subst hplace
    exact walk_cons_eq_ok.2 ⟨⟨0, rfl⟩, .stay (.inl rfl) hroot⟩
  · rwa [splitAll_ofSegments hplace fun name hname => (h.named name hname).slashFree]

/-- The canonical path leads to where the path leads. -/
theorem lookup_canonical (h : d.canonical path = .ok p) : d.lookup p = d.lookup path := by
  obtain ⟨place, entry, hlookup, rfl⟩ := canonical_eq_ok.1 h
  obtain ⟨hresolve, hentry⟩ := lookup_eq_ok.1 hlookup
  rw [hlookup]
  exact lookup_eq_ok.2 ⟨resolve_ofSegments (reaches_of_resolve hresolve), hentry⟩

theorem isAbsolute_of_canonical (h : d.canonical path = .ok p) : Path.isAbsolute p = true := by
  obtain ⟨place, -, -, rfl⟩ := canonical_eq_ok.1 h
  exact Path.isAbsolute_ofSegments place

/-- A character of the canonical path is one of the path or of a link. -/
theorem mem_of_mem_canonical (h : d.canonical path = .ok p) {c : Char} (hc : c ∈ p.toList) :
    c ∈ path.toList ∨ ∃ at_ target, d.link? at_ = some target ∧ c ∈ target.path.toList := by
  obtain ⟨place, entry, hlookup, rfl⟩ := canonical_eq_ok.1 h
  obtain ⟨-, habsolute, hfollow⟩ := resolve_eq_ok.1 (lookup_eq_ok.1 hlookup).1
  have hslash : ∀ c ∈ "/".toList, c ∈ path.toList := fun c hc =>
    (List.isPrefixOf_iff_prefix.1 habsolute).subset hc
  let Known (c : Char) : Prop :=
    c ∈ path.toList ∨ ∃ at_ target, d.link? at_ = some target ∧ c ∈ target.path.toList
  have hinvariant : d.Invariant (fun name => ∀ c ∈ name.toList, Known c)
      (fun place => ∀ name ∈ place, ∀ c ∈ name.toList, Known c) :=
    { root := List.forall_mem_nil _
      back := fun hat name hname => hat name ((List.dropLast_sublist _).subset hname)
      on := fun hat hname _ _ _ =>
        List.forall_mem_append.2 ⟨hat, List.forall_mem_singleton.2 hname⟩
      links := fun hlink name hname c hc => .inr ⟨_, _, hlink, mem_names hname hc⟩ }
  rw [Path.ofSegments, String.toList_append, List.mem_append] at hc
  rcases hc with hc | hc
  · exact .inl (hslash c hc)
  rcases Text.mem_joinWith hc with hc | ⟨name, hname, hc⟩
  · exact .inl (hslash c hc)
  · refine hinvariant.follow (List.forall_mem_nil _) (fun name hname c hc => .inl ?_) hfollow
      name hname c hc
    exact Chars.subset_of_mem_splitAll (Text.toList_mem_splitAll hname) hc

/-- Only absolute paths without zero bytes lead anywhere. -/
theorem of_lookup_eq_ok (h : d.lookup path = .ok (place, entry)) :
    NulFree path ∧ Path.isAbsolute path = true := by
  obtain ⟨hnul, habsolute, -⟩ := resolve_eq_ok.1 (lookup_eq_ok.1 h).1
  exact ⟨hnul, habsolute⟩

/-! ## More directories -/

/-- Whether all that is on one disk is on the other, and no links besides. -/
structure Extends (d d' : Disk) : Prop where
  kept : ∀ place node, d.node? place = some node → d'.node? place = some node
  linked : ∀ place target, d'.link? place = some target → d.link? place = some target

theorem Extends.refl (d : Disk) : d.Extends d := ⟨fun _ _ h => h, fun _ _ h => h⟩

theorem Extends.trans {d'' : Disk} (h : d.Extends d') (h' : d'.Extends d'') : d.Extends d'' where
  kept place node hnode := h'.kept place node (h.kept place node hnode)
  linked place target hlink := h.linked place target (h'.linked place target hlink)

theorem Extends.entry? (h : d.Extends d') (hentry : d.entry? place = some entry) :
    d'.entry? place = some entry :=
  entry?_eq_some.2 (h.kept _ _ (entry?_eq_some.1 hentry))

theorem Extends.link?_eq (h : d.Extends d') (place : List String) :
    d'.link? place = d.link? place := by
  refine Option.ext fun target => ⟨h.linked place target, fun hlink => ?_⟩
  exact link?_eq_some.2 (h.kept _ _ (link?_eq_some.1 hlink))

theorem node?_insert {next : List String} (node : DiskNode) :
    (⟨d.entries.insert (Path.ofSegments next) node⟩ : Disk).node? place =
      if place.isEmpty then some (.directory 0)
      else if Path.ofSegments place = Path.ofSegments next then some node
      else d.node? place := by
  unfold node?
  split_ifs with hroot hsame
  · rfl
  · exact (OrderedMap.get?_insert ..).trans (if_pos hsame)
  · exact (OrderedMap.get?_insert ..).trans (if_neg hsame)

theorem extends_insert {next : List String} (hnone : d.node? next = none) (entry : DiskEntry) :
    d.Extends ⟨d.entries.insert (Path.ofSegments next) (.entry entry)⟩ where
  kept place node hnode := by
    rw [node?_insert]
    split_ifs with hroot hsame
    · rwa [node?, if_pos hroot] at hnode
    · rw [node?, if_neg hroot, hsame] at hnode
      unfold node? at hnone
      split_ifs at hnone
      rw [hnode] at hnone
      cases hnone
    · exact hnode
  linked place target hlink := by
    rw [link?_eq_some, node?_insert] at hlink
    split_ifs at hlink
    · cases hlink
    · cases hlink
    · exact link?_eq_some.2 hlink

theorem extends_make {at_ names : List String} {now : Int64}
    (h : makeDirectories.make now d at_ names = .ok d') : d.Extends d' := by
  induction names generalizing d at_ with
  | nil =>
    cases h
    exact .refl _
  | cons name rest ih =>
    rw [makeDirectories.make] at h
    generalize hnext : (if name = ".." then at_.dropLast else at_ ++ [name]) = next at h
    split at h
    · exact ih h
    · cases h
    · split at h
      · exact ih h
      · cases h
      · cases h
    next hnone =>
      split_ifs at h with hlong
      exact (extends_insert hnone _).trans (ih h)

theorem extends_makeDirectories {now : Int64} (h : d.makeDirectories path now = .ok d') :
    d.Extends d' := by
  unfold makeDirectories at h
  split_ifs at h
  exact extends_make h

theorem Extends.walk (hd : d.Extends d') {at_ names : List String} {passage : Passage}
    (h : d.walk at_ names = .ok passage) : d'.walk at_ names = .ok passage := by
  induction names generalizing at_ with
  | nil => exact h
  | cons name rest ih =>
    obtain ⟨⟨modified, hentry⟩, hstep⟩ := walk_cons_eq_ok.1 h
    refine walk_cons_eq_ok.2 ⟨⟨modified, hd.entry? hentry⟩, ?_⟩
    cases hstep with
    | stay hname hrest => exact .stay hname (ih hrest)
    | back hname hrest => exact .back hname (ih hrest)
    | on hname hlink hrest => exact .on hname ((hd.link?_eq _).trans hlink) (ih hrest)
    | link hname hlink => exact .link hname ((hd.link?_eq _).trans hlink)

theorem Extends.follow (hd : d.Extends d') {at_ names : List String} {links : Nat}
    (h : d.follow links at_ names = .ok place) : d'.follow links at_ names = .ok place := by
  induction links generalizing at_ names with
  | zero =>
    rcases follow_eq_ok.1 h with hwalk | ⟨left, -, -, -, hleft, -⟩
    · exact follow_eq_ok.2 (.inl (hd.walk hwalk))
    · cases hleft
  | succ links ih =>
    rcases follow_eq_ok.1 h with hwalk | ⟨left, directory, target, rest, hleft, hwalk, hon⟩
    · exact follow_eq_ok.2 (.inl (hd.walk hwalk))
    · cases hleft
      exact follow_eq_ok.2
        (.inr ⟨links, directory, target, rest, rfl, hd.walk hwalk, ih hon⟩)

/-- What is found is found with more directories, too. -/
theorem lookup_of_extends (hd : d.Extends d') (h : d.lookup path = .ok (place, entry)) :
    d'.lookup path = .ok (place, entry) := by
  obtain ⟨hresolve, hentry⟩ := lookup_eq_ok.1 h
  obtain ⟨hnul, habsolute, hfollow⟩ := resolve_eq_ok.1 hresolve
  exact lookup_eq_ok.2 ⟨resolve_eq_ok.2 ⟨hnul, habsolute, hd.follow hfollow⟩, hd.entry? hentry⟩

theorem readText_congr {path' : String} (h : d'.lookup path' = d.lookup path) :
    d'.readText path' = d.readText path := by
  rw [readText, readText, read, read, h]

theorem canonical_of_extends (hd : d.Extends d') (h : d.canonical path = .ok p) :
    d'.canonical path = .ok p := by
  obtain ⟨place, entry, hlookup, hp⟩ := canonical_eq_ok.1 h
  exact canonical_eq_ok.2 ⟨place, entry, lookup_of_extends hd hlookup, hp⟩

/-- Whether a file can be put in place does not depend on what it holds. -/
theorem map_replace (d : Disk) (path : String) (content content' : Bytes) (modified : Int64) :
    (d.replace path content modified).map (fun _ => ()) =
      (d.replace path content' modified).map fun _ => () := by
  simp only [replace]
  generalize Path.ofSegments (Path.segments path).dropLast = parents
  cases d.makeDirectories parents modified with
  | error fault => rfl
  | ok d =>
    simp only [bind, Except.bind]
    cases d.resolve parents with
    | error fault => rfl
    | ok directory =>
      simp only
      split <;> rfl

end Disk
end PhpIndex
