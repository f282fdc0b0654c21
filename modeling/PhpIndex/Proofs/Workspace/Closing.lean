import PhpIndex.Proofs.Workspace.Requests
import PhpIndex.Proofs.Workspace.Runs

/-!
# Closing a document

A document that is closed is given up and read again from the disk, whatever was stored of it, or
removed if its file is gone. Then it has the rows of what was read, or none, and all others have
those that they had. Declarations, references, scopes and the record of a document are cleared
whatever they hold; the rows of its names and words are found through the declarations, so that
none is left over if everything that was stored on the way can be read back and told apart.
Main statements: `Workspace.Reached.leadsTo`, `closed_as_on_disk`, `closing_mixes_words`.
-/
namespace PhpIndex

/-- Whether the operation removes a document or stores a version of one with the property. -/
def Operation.Stores (P : Document → Prop) (op : Operation) : Prop :=
  NulFree op.uri ∧ ∀ v, op = .replace v → ∃ d now, P d ∧ v = Document.version d now

/-- Whether the names of a document can be told apart and read back. -/
structure Document.Separable (d : Document) : Prop extends d.Regular where
  separable : ∀ s ∈ d.symbols, s.Separable

instance (d : Document) : Decidable d.Separable :=
  decidable_of_iff (d.Regular ∧ ∀ s ∈ d.symbols, s.Separable)
    ⟨fun h => ⟨h.1, h.2⟩, fun h => ⟨h.toRegular, h.separable⟩⟩

theorem Document.Separable.valid {d : Document} (h : d.Separable) (now : Int64) :
    (d.version now).Valid where
  uri := h.uri
  record := h.record
  separable := h.separable
  fits s hs := (h.symbols s hs).1

namespace Operation.Stores
variable {P : Document → Prop} {op : Operation}

theorem valid (h : op.Stores Document.Separable) : op.Valid := by
  cases op with
  | replace v =>
    obtain ⟨d, now, hd, rfl⟩ := h.2 v rfl
    exact hd.valid now
  | remove uri => exact h.1

theorem plain (h : op.Stores Document.Regular) : op.Plain := by
  cases op with
  | replace v =>
    obtain ⟨d, now, hd, rfl⟩ := h.2 v rfl
    exact hd.symbols
  | remove uri => trivial

end Operation.Stores

/-! ## States that are reached -/

namespace Task
variable {h : Host} {w : Workspace} {t : Task} {P : Document → Prop}

theorem leadsTo_step (hbrings : t.Brings h P) (hnul : NulFree (t.uri h.cwd)) :
    w.store.rows.LeadsTo (Operation.Stores P) (t.step h w).1.store.rows := by
  cases hop : t.operation? h w with
  | none =>
    rw [step_of_none hop]
    exact .refl
  | some op =>
    have hoperates := operates_of_operation hop
    rw [hoperates.step_eq]
    have hstores : op.Stores P := by
      refine ⟨hoperates.uri_eq ▸ hnul, ?_⟩
      rintro v rfl
      obtain ⟨d, rfl, -, htask⟩ := hoperates.exists_of_replace
      exact ⟨d, h.now, hbrings.1 d htask, rfl⟩
    exact (Workspace.follows_operate hstores).rows

theorem leadsTo_alone (hbrings : t.Brings h P) (hnul : NulFree (t.uri h.cwd)) :
    w.store.rows.LeadsTo (Operation.Stores P) (t.alone h w).1.store.rows := by
  induction hleft : t.left using Nat.strong_induction_on generalizing t w with
  | _ n ih =>
    have hfirst := leadsTo_step (w := w) hbrings hnul
    rcases hstep : t.step h w with ⟨w', e | _ | next⟩
    · rw [alone_of_error hstep]
      rwa [hstep] at hfirst
    · rw [alone_of_none hstep]
      rwa [hstep] at hfirst
    · have hleaves : t.Leaves h w next := leaves_of_step (by rw [hstep])
      rw [alone_of_some hstep]
      rw [hstep] at hfirst
      exact hfirst.trans (ih next.left (hleft ▸ hleaves.left_lt) (hleaves.brings hbrings)
        (hleaves.uri ▸ hnul) rfl)

end Task

namespace Workspace
variable {P : Document → Prop} {w : Workspace}

/-- What follows from storing listed files and removing what is missing. -/
theorem leadsTo_indexListed {h : Host} {root : String} {files : List String}
    (hrows : w.store.rows.Filed) (hnul : ∀ u ∈ (Request.indexListed root files).uris h, NulFree u)
    (hstored : ∀ d, (Request.indexListed root files).MayStore h d → P d) :
    w.store.rows.LeadsTo (Operation.Stores P) (w.indexListed h root files).1.store.rows := by
  obtain ⟨w₁, hfiles, hmissing⟩ := w.exists_follows_indexListed h root files
  have hfirst : w.store.rows.LeadsTo (Operation.Stores P) w₁.store.rows := by
    refine hfiles.rows.mono ?_
    rintro op ⟨path, hpath, modified, d, hread, -, rfl⟩
    have hlisted := List.mem_map_of_mem (f := Path.toUri h.cwd) hpath
    have huri : d.uri = Path.toUri h.cwd path := (uri_readFile hread).1
    refine ⟨hnul _ (show d.uri ∈ _ from huri ▸ hlisted), ?_⟩
    rintro v hv
    cases hv
    exact ⟨d, h.now, hstored d (.inr ⟨_, hlisted, modified, hread⟩), rfl⟩
  refine hfirst.trans (hmissing.rows.mono ?_)
  rintro op ⟨u, ⟨hlisted, -, -, -⟩, rfl⟩
  have hrows₁ : w₁.store.rows.Filed := hfirst.filed hrows fun op hop => hop.1
  exact ⟨hrows₁.nulFree_of_hasDocument (hrows₁.mem_documentUris.1 hlisted), nofun⟩

theorem leadsTo_run {h : Host} {r : Request} (hrows : w.store.rows.Filed)
    (hnul : ∀ u ∈ r.uris h, NulFree u) (hstored : ∀ d, r.MayStore h d → P d) :
    w.store.rows.LeadsTo (Operation.Stores P) (r.run h w).store.rows := by
  cases r with
  | call c =>
    rw [Request.run, ← Call.alone_task]
    exact Task.leadsTo_alone (Request.brings_task hstored) (hnul _ (List.mem_singleton_self _))
  | indexListed root files =>
    rw [Request.run]
    exact leadsTo_indexListed hrows hnul hstored
  | flush => exact follows_flush.rows

/-- The workspaces that come about by requests and by single steps of calls, each on any disk and at
any time, on documents without zero characters in their uris, where all that may be stored has the
property. The store may be saved and opened again in between. -/
inductive Reached (P : Document → Prop) : Workspace → Prop
  | fresh {w : Workspace} (hrows : w.store.rows = .empty) : Reached P w
  | request {w : Workspace} {h : Host} {r : Request} (hw : Reached P w)
    (hnul : ∀ u ∈ r.uris h, NulFree u)
    (hstored : ∀ d, r.MayStore h d → P d) : Reached P (r.run h w)
  | step {w : Workspace} {h : Host} {t : Task} (hw : Reached P w)
    (hnul : NulFree (t.uri h.cwd)) (hbrings : t.Brings h P) : Reached P (t.step h w).1
  | reopened {w w' : Workspace} (hw : Reached P w) (hrows : w'.store.rows = w.store.rows) :
    Reached P w'

namespace Reached

theorem mono {Q : Document → Prop} (hw : w.Reached P) (himp : ∀ d, P d → Q d) : w.Reached Q := by
  induction hw with
  | fresh hrows => exact .fresh hrows
  | request _ hnul hstored ih => exact ih.request hnul fun d hd => himp d (hstored d hd)
  | step _ hnul hbrings ih =>
    exact ih.step hnul ⟨fun d hd => himp d (hbrings.1 d hd),
      fun modified d hread => himp d (hbrings.2 modified d hread)⟩
  | reopened _ hrows ih => exact ih.reopened hrows

/-- The rows are what operations on such documents left of an empty store. -/
theorem leadsTo (hw : w.Reached P) :
    Rows.LeadsTo (Operation.Stores P) .empty w.store.rows := by
  induction hw with
  | fresh hrows =>
    rw [hrows]
    exact .refl
  | request _ hnul hstored ih =>
    have hfiled := ih.filed Rows.Regular.empty.isFiled fun op hop => hop.1
    exact ih.trans (leadsTo_run hfiled hnul hstored)
  | step _ hnul hbrings ih => exact ih.trans (Task.leadsTo_step hbrings hnul)
  | reopened _ hrows ih => rwa [hrows]

theorem plain (hw : w.Reached Document.Regular) : w.store.rows.Plain :=
  hw.leadsTo.plain .empty fun _ hop => hop.plain

/-- The rows are those of the last versions of the documents. -/
theorem exists_holds (hw : w.Reached Document.Separable) : ∃ last, Holds w.store.rows last := by
  have hrows := hw.leadsTo
  generalize w.store.rows = rows at hrows ⊢
  induction hrows with
  | refl => exact ⟨_, .empty⟩
  | step _ hop hrun ih =>
    obtain ⟨last, hlast⟩ := ih
    obtain ⟨s, hrun', hnext⟩ := hlast.run hop.valid
    obtain rfl := Except.ok.inj (hrun.symm.trans hrun')
    exact ⟨_, hnext⟩

end Reached

/-! ## What closing does -/

variable {h : Host} {uri : String}

theorem isOpen_forget : (w.forget uri).isOpen uri = false := by
  rw [isOpen, forget, OrderedMap.contains, OrderedMap.get?_erase, if_pos rfl]
  rfl

/-- A document is closed by giving it up and one operation on the store. -/
theorem close_eq (h : Host) (w : Workspace) (uri : String) : w.close h uri =
    match (Path.ofUri? uri).bind fun path => (h.modified path).toOption with
    | some modified =>
      match readFile h uri modified with
      | .error e => (w.forget uri, .error e)
      | .ok d => (w.forget uri).operate (.replace (d.version h.now))
    | none => (w.forget uri).operate (.remove uri) := by
  unfold close
  simp only
  cases (Path.ofUri? uri).bind fun path => (h.modified path).toOption with
  | none =>
    rw [← remove_eq]
    rfl
  | some modified =>
    simp only [indexFromDisk]
    cases hread : readFile h uri modified with
    | error e => rfl
    | ok d =>
      have hpassed : (w.forget uri).isPassed true d = .ok false := by
        rw [isPassed, if_pos rfl, (uri_readFile hread).1, isOpen_forget]
      simp only [commit_eq, hpassed]
      rcases (w.forget uri).operate_cases (.replace (d.version h.now)) with
        ⟨_, _, hrun⟩ | ⟨_, _, hrun⟩ <;> rw [hrun] <;> rfl

theorem of_operate_eq_ok {op : Operation} (hdone : (w.operate op).2 = .ok ()) :
    op.run w.store = .ok (w.operate op).1.store := by
  rcases w.operate_cases op with ⟨s', hrun, heq⟩ | ⟨e, -, heq⟩
  · rw [heq]
    exact hrun
  · rw [heq] at hdone
    cases hdone

theorem isOpen_close (h : Host) (w : Workspace) (uri : String) :
    (w.close h uri).1.isOpen uri = false := by
  have hoperate (op : Operation) : ((w.forget uri).operate op).1.isOpen uri = false := by
    rw [isOpen, opened_operate]
    exact isOpen_forget
  rw [close_eq]
  split
  · split
    · exact isOpen_forget
    · exact hoperate _
  · exact hoperate _

/-- A document whose file is there is stored as it was read. -/
theorem run_of_close_file (hdone : (w.close h uri).2 = .ok ()) {path : String} {modified : Int64}
    (hpath : Path.ofUri? uri = some path) (hmodified : h.modified path = .ok modified) :
    ∃ text, h.readText path = .ok text ∧
      readFile h uri modified = .ok (h.parse uri text modified) ∧
      (Operation.replace ((h.parse uri text modified).version h.now)).run w.store =
        .ok (w.close h uri).1.store := by
  simp only [close_eq, hpath, Option.bind_some, hmodified, Except.toOption] at hdone ⊢
  cases htext : h.readText path with
  | error fault =>
    have hread : readFile h uri modified = .error (.fileRead path fault) := by
      simp only [readFile, hpath, htext]
    rw [hread] at hdone
    cases hdone
  | ok text =>
    have hread : readFile h uri modified = .ok (h.parse uri text modified) := by
      simp only [readFile, hpath, htext]
    rw [hread] at hdone ⊢
    exact ⟨text, rfl, rfl, of_operate_eq_ok hdone⟩

/-- A document whose file is not there is removed. -/
theorem run_of_close_gone (hdone : (w.close h uri).2 = .ok ())
    (hgone : ∀ path, Path.ofUri? uri = some path → ∃ fault, h.modified path = .error fault) :
    (Operation.remove uri).run w.store = .ok (w.close h uri).1.store := by
  have hnone : ((Path.ofUri? uri).bind fun path => (h.modified path).toOption) = none := by
    rw [Option.bind_eq_none_iff]
    intro path hpath
    obtain ⟨fault, hfault⟩ := hgone path hpath
    rw [hfault]
    rfl
  rw [close_eq, hnone] at hdone ⊢
  exact of_operate_eq_ok hdone

/-- One operation on the document is what closing it makes of the store. -/
theorem exists_run_of_close (hdone : (w.close h uri).2 = .ok ()) : ∃ op : Operation,
    op.run w.store = .ok (w.close h uri).1.store ∧ op.uri = uri ∧
      ∀ v, op = .replace v → ∃ modified d, readFile h uri modified = .ok d ∧
        v = d.version h.now := by
  by_cases hfile : ∃ path modified, Path.ofUri? uri = some path ∧ h.modified path = .ok modified
  · obtain ⟨path, modified, hpath, hmodified⟩ := hfile
    obtain ⟨text, -, hread, hrun⟩ := run_of_close_file hdone hpath hmodified
    refine ⟨_, hrun, rfl, fun v hv => ?_⟩
    cases hv
    exact ⟨modified, _, hread, rfl⟩
  · refine ⟨_, run_of_close_gone hdone fun path hpath => ?_, rfl, nofun⟩
    cases hmodified : h.modified path with
    | error fault => exact ⟨fault, rfl⟩
    | ok modified => exact absurd ⟨path, modified, hpath, hmodified⟩ hfile

end Workspace

/-! ## Rows of the document -/

/-- Whether the rows of the table are found through the declarations of a document. -/
def IndexPart.IsDerived : IndexPart → Prop
  | names _ | words _ => True
  | _ => False

theorem IndexPart.Owns.led_of_not_derived {p : IndexPart} (hp : ¬ p.IsDerived) {uri : String}
    {k : Bytes} (h : p.Owns uri k) : p.Led uri k := by
  cases p with
  | names kind => exact absurd trivial hp
  | words kind => exact absurd trivial hp
  | _ => exact h

/-- A row of a document is one of its last version. -/
theorem Holds.get?_of_owns {rows : Rows} {last : String → Option Version} (h : Holds rows last)
    {uri : String} (huri : NulFree uri) {p : IndexPart} {k : Bytes} (hk : p.Owns uri k) :
    rows.get? (p.table.key k) = (last uri).bind fun v => v.rows.get? (p.table.key k) := by
  refine Option.ext fun value => ?_
  rw [h.rows, Option.bind_eq_some_iff]
  refine ⟨fun ⟨u, v, hv, hvalue⟩ => ?_, fun ⟨v, hv, hvalue⟩ => ⟨uri, v, hv, hvalue⟩⟩
  have hvalid := h.valid u v hv
  have howns := IndexPart.owns_of_enters (fun _ t ht => (hvalid.separable t ht).plain)
    (Version.enters_of_get?_rows hvalue)
  have heq := howns.unique hvalid.uri huri hk
  rw [h.uri u v hv] at heq
  exact ⟨v, heq ▸ hv, hvalue⟩

namespace Store
variable {s t : Store} {uri : String} {p : IndexPart} {k : Bytes}

/-- After a replacement the document has the rows of the version alone. -/
theorem get?_run_replace {v : Version} (hrun : (Operation.replace v).run s = .ok t)
    (huri : NulFree v.uri) (hk : p.Owns v.uri k)
    (hheld : p.IsDerived → v.Valid ∧ ∃ last, Holds s.rows last) :
    t.rows.get? (p.table.key k) = v.rows.get? (p.table.key k) := by
  -- Rows of names and words are found by what was stored before, the others by their keys alone.
  by_cases hp : p.IsDerived
  · obtain ⟨hv, last, hlast⟩ := hheld hp
    have hvalid : (Operation.replace v).Valid := hv
    obtain ⟨t', hrun', hnext⟩ := hlast.run hvalid
    obtain rfl := Except.ok.inj (hrun.symm.trans hrun')
    rw [hnext.get?_of_owns huri hk, Operation.lastAfter, if_pos rfl, Option.bind_some]
  · exact get?_led hrun (hk.led_of_not_derived hp)

/-- After a removal the document has no row. -/
theorem get?_run_remove (hrun : (Operation.remove uri).run s = .ok t) (huri : NulFree uri)
    (hk : p.Owns uri k) (hheld : p.IsDerived → ∃ last, Holds s.rows last) :
    t.rows.get? (p.table.key k) = none := by
  by_cases hp : p.IsDerived
  · obtain ⟨last, hlast⟩ := hheld hp
    have hvalid : (Operation.remove uri).Valid := huri
    obtain ⟨t', hrun', hnext⟩ := hlast.run hvalid
    obtain rfl := Except.ok.inj (hrun.symm.trans hrun')
    rw [hnext.get?_of_owns huri hk, Operation.lastAfter, if_pos rfl, Option.bind_none]
  · obtain ⟨batch, hbatch, hrows⟩ := exists_of_run_remove hrun
    obtain ⟨hremovals, hclear⟩ := of_run_removal hbatch
    rw [hrows, Rows.get?_apply_removals hremovals]
    exact if_pos (hclear p k (hk.led_of_not_derived hp))

end Store

/-- A document that is closed is not open any more, and has the rows of its file as it is now, or
none if there is no such file; all other documents have the rows that they had. Of names and words
this holds where all that was stored can be read back and told apart, and of the words of other
documents where names have no zero characters. -/
theorem closed_as_on_disk {w : Workspace} {uri : String} (huri : NulFree uri) {h : Host}
    (hdone : (w.close h uri).2 = .ok ()) : let w' := (w.close h uri).1
    w'.isOpen uri = false ∧
    (∀ path modified, Path.ofUri? uri = some path → h.modified path = .ok modified →
      ∃ text, h.readText path = .ok text ∧
        let d := h.parse uri text modified
        d.modified = modified ∧ ∀ (p : IndexPart) k, p.Owns uri k →
          (p.IsDerived → w.Reached Document.Separable ∧ d.Separable) →
            w'.store.rows.get? (p.table.key k) = (d.version h.now).rows.get? (p.table.key k)) ∧
    ((∀ path, Path.ofUri? uri = some path → ∃ fault, h.modified path = .error fault) →
      ∀ (p : IndexPart) k, p.Owns uri k → (p.IsDerived → w.Reached Document.Separable) →
        w'.store.rows.get? (p.table.key k) = none) ∧
    ∀ other, NulFree other → other ≠ uri → ∀ (p : IndexPart) k, p.Owns other k →
      (p.IsWords → w.Reached Document.Regular ∧
        ∀ modified d, Workspace.readFile h uri modified = .ok d → d.Regular) →
          w'.store.rows.get? (p.table.key k) = w.store.rows.get? (p.table.key k) := by
  intro w'
  refine ⟨Workspace.isOpen_close h w uri, fun path modified hpath hmodified => ?_,
    fun hgone p k hk hreached => ?_, fun other hother hne p k hk hplain => ?_⟩
  · obtain ⟨text, htext, -, hrun⟩ := Workspace.run_of_close_file hdone hpath hmodified
    refine ⟨text, htext, rfl, fun p k hk hreached => ?_⟩
    exact Store.get?_run_replace hrun huri hk fun hp =>
      ⟨(hreached hp).2.valid h.now, (hreached hp).1.exists_holds⟩
  · have hrun := Workspace.run_of_close_gone hdone hgone
    exact Store.get?_run_remove hrun huri hk fun hp => (hreached hp).exists_holds
  · obtain ⟨op, hrun, rfl, hreplace⟩ := Workspace.exists_run_of_close hdone
    refine Store.get?_of_run hrun (fun hown => hne (hk.unique hother huri hown)) fun hp => ?_
    obtain ⟨hreached, hread⟩ := hplain hp
    refine ⟨hreached.plain, ?_⟩
    cases op with
    | remove removed => trivial
    | replace v =>
      obtain ⟨modified, d, hd, rfl⟩ := hreplace v rfl
      exact (hread modified d hd).symbols

/-! ## A document that is closed, and one that takes a word with it -/

theorem Host.readText_blank (path text : String) : Host.blank.readText path ≠ .ok text := by
  unfold readText
  generalize Host.blank.path path = place
  rw [Disk.readText, Disk.read, Disk.lookup]
  cases Host.blank.disk.resolve place with
  | error fault => nofun
  | ok segments => cases segments <;> nofun

theorem Workspace.readFile_blank (uri : String) (modified : Int64) (d : Document) :
    readFile .blank uri modified ≠ .ok d := by
  unfold readFile
  split
  · nofun
  · split
    · exact fun _ => Host.readText_blank _ _ ‹_›
    · nofun

/-- Two documents that were indexed, one of which is then opened. -/
def openedBesides : List (Host × Request) :=
  [(.blank, .call (.index (functionDocument "file:///b.php" "g"))),
    (.blank, .call (.index (functionDocument "file:///a.php" "f"))),
    (.blank, .call (.edit "file:///a.php" "<?php g();"))]

theorem reached_openedBesides :
    (Workspace.blank.serve openedBesides).Reached Document.Separable := by
  have hcall {w : Workspace} {c : Call} (hw : w.Reached Document.Separable)
      (hnul : NulFree (c.task.uri "/")) (hgiven : ∀ d, c = .index d → d.Separable) :
      ((Request.call c).run .blank w).Reached Document.Separable := by
    refine hw.request (fun u hu => List.mem_singleton.1 hu ▸ hnul) fun d hd => ?_
    obtain hindex | ⟨u, -, modified, hread⟩ := hd
    · cases hindex
      exact hgiven d rfl
    · exact absurd hread (Workspace.readFile_blank u modified d)
  have hempty : Workspace.blank.Reached Document.Separable := .fresh rfl
  have hother := hcall (c := .index (functionDocument "file:///b.php" "g")) hempty (by decide)
    (by rintro d hd; cases hd; decide +kernel)
  have hindexed := hcall (c := .index (functionDocument "file:///a.php" "f")) hother (by decide)
    (by rintro d hd; cases hd; decide +kernel)
  exact hcall (c := .edit "file:///a.php" "<?php g();") hindexed (by decide) nofun

theorem closed_as_on_disk_changed :
    let h := Host.withFile "/a.php" "<?php" 5
    let w := Workspace.blank.serve openedBesides
    let w' := (w.close h "file:///a.php").1
    NulFree "file:///a.php" ∧ (w.close h "file:///a.php").2 = .ok () ∧
      w.isOpen "file:///a.php" = true ∧ w'.isOpen "file:///a.php" = false ∧
      (∀ (p : IndexPart) k, p.Owns "file:///a.php" k → w'.store.rows.get? (p.table.key k) =
        ((h.parse "file:///a.php" "<?php" 5).version h.now).rows.get? (p.table.key k)) ∧
      ∀ (p : IndexPart) k, p.Owns "file:///b.php" k →
        w'.store.rows.get? (p.table.key k) = w.store.rows.get? (p.table.key k) := by
  intro h w w'
  have huri : NulFree "file:///a.php" := by decide
  have hdone : (w.close h "file:///a.php").2 = .ok () := by decide +kernel
  have hreached : w.Reached Document.Separable := reached_openedBesides
  obtain ⟨hclosed, hfile, -, hothers⟩ := closed_as_on_disk huri hdone
  refine ⟨huri, hdone, by decide +kernel, hclosed, fun p k hk => ?_, fun p k hk => ?_⟩
  · have hpath : Path.ofUri? "file:///a.php" = some "/a.php" := by decide +kernel
    have hmodified : h.modified "/a.php" = .ok 5 := by decide +kernel
    obtain ⟨text, htext, -, hrows⟩ := hfile "/a.php" 5 hpath hmodified
    have hcontent : h.readText "/a.php" = .ok "<?php" := by decide +kernel
    obtain rfl := Except.ok.inj (htext.symm.trans hcontent)
    exact hrows p k hk fun _ => ⟨hreached, by decide +kernel⟩
  · refine hothers "file:///b.php" (by decide) (by decide) p k hk fun _ => ?_
    have hregular : Workspace.FilesRegular h ["/a.php"] :=
      Workspace.filesRegular_of_texts (by decide +kernel)
    have hlisted : Path.toUri h.cwd "/a.php" = "file:///a.php" := by decide +kernel
    exact ⟨hreached.mono fun _ hd => hd.toRegular,
      hlisted ▸ (hregular "/a.php" (List.mem_singleton_self _)).2⟩

/-- Two documents of which the one has a word under a key of the other. -/
def colliding : Workspace := Workspace.blank.serve
  [(.blank, .call (.index (functionDocument "v" collidingNames.2))),
    (.blank, .call (.index (functionDocument "u" collidingNames.1)))]

/-- A document of which two methods have one name with that of their class before it. -/
def sharing : Workspace :=
  let method (owner name : String) : Symbol :=
    .method ⟨name, owner, .of "u" ⟨0, 1⟩, {}, {}, .empty, none⟩
  Workspace.blank.serve
    [(.blank, .call (.index (.ofSymbols "u" [method "A@b" "c_d", method "A" "b@c_d"])))]

/-- A document that is closed takes a word of another one with it where names have zero
characters, and leaves one of its own where names of members have at signs. -/
theorem closing_mixes_words :
    let taken := (IndexPart.words .functions).table.key
      (CompletionIndex.key "" "q" "u" collidingNames.1)
    let left := (IndexPart.words .methods).table.key
      (CompletionIndex.key "A@b" "d" "u" "A@b@c_d")
    (NulFree "u" ∧ NulFree "v" ∧ (colliding.close .blank "v").2.isOk = true ∧
      colliding.store.rows.get? taken =
        some (toRecord (⟨"u", collidingNames.1⟩ : CompletionEntry)) ∧
      (colliding.close .blank "v").1.store.rows.get? taken = none) ∧
    (sharing.close .blank "u").2.isOk = true ∧ Path.ofUri? "u" = none ∧
      (sharing.close .blank "u").1.store.rows.get? left =
        some (toRecord (⟨"u", "A@b@c_d"⟩ : CompletionEntry)) := by
  refine ⟨⟨by decide, by decide, ?_, ?_, ?_⟩, ?_, ?_, ?_⟩ <;> decide +kernel

end PhpIndex
