import PhpIndex.Proofs.Workspace.Buffers
import PhpIndex.Proofs.Workspace.Directories
import PhpIndex.Workspace.Questions

/-!
# Requests

What is asked of a workspace one after the other, each on the disk and at the time that it meets.
While a document is open no request stores anything for it, so its rows stay as they were when it
was opened, and it answers from its buffer. The exception is the request to remove it, which does
not look whether it is open.
Main statements: `open_document_bypassed`, `open_document_removed`.
-/
namespace PhpIndex

/-- What may be asked of a workspace that changes it. A walk through a directory may list any
files. -/
inductive Request where
  | call (c : Call)
  | indexListed (root : String) (files : List String)
  | flush

namespace Request

def run (h : Host) (w : Workspace) : Request → Workspace
  | call c => (c.run h w).1
  | indexListed root files => (w.indexListed h root files).1
  | flush => (w.flush h).1

/-- The documents that the request may store. -/
def uris (h : Host) : Request → List String
  | call c => [c.task.uri h.cwd]
  | indexListed _ files => files.map (Path.toUri h.cwd)
  | flush => []

/-- Whether the request may store this version of a document. -/
def MayStore (h : Host) (r : Request) (d : Document) : Prop :=
  r = .call (.index d) ∨ ∃ uri ∈ r.uris h, ∃ modified,
    Workspace.readFile h uri modified = .ok d

/-- The text that the request gives a document. -/
def buffer? (h : Host) (uri : String) : Request → Option Document
  | call c => c.task.buffer? h uri
  | _ => none

/-- Whether the request is neither to close nor to remove the document. -/
def Spares (uri : String) (r : Request) : Prop :=
  r ≠ .call (.close uri) ∧ r ≠ .call (.remove uri)

end Request

namespace Workspace

/-- One request after the other, each with the disk and the clock that it meets. -/
def serve (w : Workspace) (requests : List (Host × Request)) : Workspace :=
  requests.foldl (fun w x => x.2.run x.1 w) w

/-- Whether what is asked about a document is answered from this text. -/
structure AnswersFrom (w : Workspace) (uri : String) (d : Document) : Prop where
  buffer : w.opened.get? uri = some d
  context : w.context uri = .ok d.context
  referenceAt : ∀ offset, w.referenceAt uri offset = .ok (d.referenceAt offset)
  callAt : ∀ offset, w.callAt uri offset = .ok (d.callAt offset)
  documentSymbols : w.documentSymbols uri = .ok d.symbolsInSourceOrder

theorem answersFrom_of_get? {w : Workspace} {uri : String} {d : Document}
    (h : w.opened.get? uri = some d) : w.AnswersFrom uri d := by
  constructor
  case buffer => exact h
  case context => rw [context, h]
  case referenceAt => exact fun offset => by rw [Workspace.referenceAt, h]
  case callAt => exact fun offset => by rw [Workspace.callAt, h]
  case documentSymbols => rw [Workspace.documentSymbols, h]

end Workspace

/-! ## Past an open document -/

/-- Whether the operation is on another document, of which it stores a version with the property. -/
def Operation.Elsewhere (uri : String) (P : Document → Prop) (op : Operation) : Prop :=
  NulFree op.uri ∧ op.uri ≠ uri ∧ ∀ v, op = .replace v → ∃ d now, P d ∧ v = Document.version d now

/-- Whether the document is still open, and only others were stored or removed. -/
structure Workspace.Bypasses (uri : String) (P : Document → Prop) (w w' : Workspace) : Prop where
  isOpen : w'.isOpen uri = true
  rows : w.store.rows.LeadsTo (Operation.Elsewhere uri P) w'.store.rows

namespace Workspace.Bypasses
variable {uri : String} {P : Document → Prop} {w w' w'' : Workspace}

theorem trans (h : Bypasses uri P w w') (h' : Bypasses uri P w' w'') : Bypasses uri P w w'' :=
  ⟨h'.isOpen, h.rows.trans h'.rows⟩

theorem of_follows {allowed : Operation → Prop} (h : Follows allowed w w')
    (hopen : w.isOpen uri = true) (hallowed : ∀ op, allowed op → op.Elsewhere uri P) :
    Bypasses uri P w w' :=
  ⟨(h.isOpen uri).trans hopen, h.rows.mono hallowed⟩

end Workspace.Bypasses

namespace Task
variable {h : Host} {w : Workspace} {t next : Task} {uri : String} {P : Document → Prop}

/-- Whether the task neither gives up the buffer of the document nor removes it. -/
def Spares (uri : String) (t : Task) : Prop :=
  t ≠ .forget uri ∧ t ≠ .locate uri ∧ t ≠ .remove uri

/-- Whether what the task has of its document, or may read of it, has the property. -/
def Brings (h : Host) (P : Document → Prop) (t : Task) : Prop :=
  (∀ d, t = .index d ∨ (∃ again, t = .commit again d) → P d) ∧
    ∀ modified d, Workspace.readFile h (t.uri h.cwd) modified = .ok d → P d

theorem Leaves.spares (hleaves : t.Leaves h w next) (ht : t.Spares uri) : next.Spares uri := by
  obtain ⟨hforget, hlocate, -⟩ := ht
  cases hleaves with
  | locates => exact ⟨nofun, fun heq => hforget (by cases heq; rfl), nofun⟩
  | removes => exact ⟨nofun, nofun, fun heq => hlocate (by cases heq; rfl)⟩
  | _ => exact ⟨nofun, nofun, nofun⟩

theorem Leaves.brings (hleaves : t.Leaves h w next) (ht : t.Brings h P) : next.Brings h P := by
  refine ⟨fun d hd => ?_, fun modified d hread => ht.2 modified d (hleaves.uri ▸ hread)⟩
  cases hleaves with
  | commits hread =>
    obtain hd | ⟨_, hd⟩ := hd
    · cases hd
    · cases hd
      exact ht.2 _ _ hread
  | _ => obtain hd | ⟨_, hd⟩ := hd <;> cases hd

theorem Leaves.buffer?_eq (hleaves : t.Leaves h w next) (uri : String) :
    t.buffer? h uri = none ∧ next.buffer? h uri = none := by
  cases hleaves <;> exact ⟨rfl, rfl⟩

theorem isOpen_step (hopen : w.isOpen uri = true) (ht : t.Spares uri) :
    (t.step h w).1.isOpen uri = true := by
  unfold Workspace.isOpen OrderedMap.contains at hopen ⊢
  rw [opened_step]
  cases t with
  | edit uri' text =>
    rw [opened, OrderedMap.get?_insert]
    split
    · rfl
    · exact hopen
  | index d =>
    rw [opened]
    split
    · rw [OrderedMap.get?_insert]
      split
      · rfl
      · exact hopen
    · exact hopen
  | forget uri' =>
    rw [opened, OrderedMap.get?_erase]
    split
    · next heq => exact absurd (heq ▸ rfl) ht.1
    · exact hopen
  | _ => exact hopen

theorem elsewhere_of_operates {op : Operation} (hop : t.Operates h w op)
    (hopen : w.isOpen uri = true) (ht : t.Spares uri) (hbrings : t.Brings h P)
    (hnul : NulFree (t.uri h.cwd)) : op.Elsewhere uri P := by
  rw [← hop.uri_eq] at hnul
  refine ⟨hnul, fun heq => ?_, fun v hv => ?_⟩
  · subst heq
    cases op with
    | replace v =>
      obtain ⟨d, rfl, hclosed, -⟩ := hop.exists_of_replace
      exact Bool.false_ne_true (hclosed.symm.trans hopen)
    | remove removed =>
      cases hop
      exact ht.2.2 rfl
  · subst hv
    obtain ⟨d, rfl, -, htask⟩ := hop.exists_of_replace
    exact ⟨d, h.now, hbrings.1 d htask, rfl⟩

theorem bypasses_step (hopen : w.isOpen uri = true) (ht : t.Spares uri) (hbrings : t.Brings h P)
    (hnul : NulFree (t.uri h.cwd)) : w.Bypasses uri P (t.step h w).1 := by
  have hstays := isOpen_step (h := h) hopen ht
  cases hop : t.operation? h w with
  | none =>
    rw [step_of_none hop] at hstays ⊢
    exact ⟨hstays, .refl⟩
  | some op =>
    have hoperates := operates_of_operation hop
    rw [hoperates.step_eq]
    exact .of_follows (Workspace.follows_operate rfl) hopen fun op' hop' =>
      hop' ▸ elsewhere_of_operates hoperates hopen ht hbrings hnul

theorem get?_step (hopen : w.isOpen uri = true) (ht : t.Spares uri) :
    (t.step h w).1.opened.get? uri = (t.buffer? h uri).or (w.opened.get? uri) := by
  obtain ⟨d, hd⟩ := Option.isSome_iff_exists.1 (isOpen_step (h := h) hopen ht)
  rw [hd]
  rw [opened_step] at hd
  exact (get?_opened hd).symm

/-- A task that spares an open document goes past it. -/
theorem bypasses_alone (hopen : w.isOpen uri = true) (ht : t.Spares uri) (hbrings : t.Brings h P)
    (hnul : NulFree (t.uri h.cwd)) : w.Bypasses uri P (t.alone h w).1 ∧
      (t.alone h w).1.opened.get? uri = (t.buffer? h uri).or (w.opened.get? uri) := by
  induction hleft : t.left using Nat.strong_induction_on generalizing t w with
  | _ n ih =>
    have hfirst := bypasses_step hopen ht hbrings hnul
    have hbuffer := get?_step (h := h) hopen ht
    rcases hstep : t.step h w with ⟨w', e | _ | next⟩
    · rw [hstep] at hfirst hbuffer
      rw [alone_of_error hstep]
      exact ⟨hfirst, hbuffer⟩
    · rw [hstep] at hfirst hbuffer
      rw [alone_of_none hstep]
      exact ⟨hfirst, hbuffer⟩
    · have hleaves : t.Leaves h w next := leaves_of_step (by rw [hstep])
      obtain ⟨hnone, hnone'⟩ := hleaves.buffer?_eq uri
      rw [hstep] at hfirst hbuffer
      rw [alone_of_some hstep]
      obtain ⟨hrest, hrestBuffer⟩ := ih next.left (hleft ▸ hleaves.left_lt) hfirst.isOpen
        (hleaves.spares ht) (hleaves.brings hbrings) (hleaves.uri ▸ hnul) rfl
      refine ⟨hfirst.trans hrest, ?_⟩
      rw [hrestBuffer, hnone', Option.none_or]
      exact hbuffer

end Task

namespace Request
variable {h : Host} {w : Workspace} {r : Request} {uri : String} {P : Document → Prop}

theorem spares_task {c : Call} (hr : (call c).Spares uri) : c.task.Spares uri := by
  obtain ⟨hclose, hremove⟩ := hr
  cases c with
  | close uri' => exact ⟨fun heq => hclose (by cases heq; rfl), nofun, nofun⟩
  | remove uri' => exact ⟨nofun, nofun, fun heq => hremove (by cases heq; rfl)⟩
  | _ => exact ⟨nofun, nofun, nofun⟩

theorem brings_task {c : Call} (hstored : ∀ d, (call c).MayStore h d → P d) :
    c.task.Brings h P := by
  refine ⟨fun d hd => hstored d ?_, fun modified d hread =>
    hstored d (.inr ⟨_, List.mem_singleton_self _, modified, hread⟩)⟩
  cases c <;> obtain hd | ⟨_, hd⟩ := hd <;> cases hd
  exact .inl rfl

theorem bypasses_indexListed {root : String} {files : List String} (hopen : w.isOpen uri = true)
    (hrows : w.store.rows.Filed) (hnul : ∀ u ∈ (indexListed root files).uris h, NulFree u)
    (hstored : ∀ d, (indexListed root files).MayStore h d → P d) :
    w.Bypasses uri P (w.indexListed h root files).1 := by
  obtain ⟨w₁, hfiles, hmissing⟩ := w.exists_follows_indexListed h root files
  have hfirst : w.Bypasses uri P w₁ := by
    refine .of_follows hfiles hopen ?_
    rintro op ⟨path, hpath, modified, d, hread, hclosed, rfl⟩
    have huri : d.uri = Path.toUri h.cwd path := (Workspace.uri_readFile hread).1
    have hlisted := List.mem_map_of_mem (f := Path.toUri h.cwd) hpath
    refine ⟨?_, ?_, ?_⟩
    · exact hnul _ (show d.uri ∈ _ from huri ▸ hlisted)
    · rintro rfl
      exact Bool.false_ne_true (hclosed.symm.trans hopen)
    · rintro v hv
      cases hv
      exact ⟨d, h.now, hstored d (.inr ⟨_, hlisted, modified, hread⟩), rfl⟩
  refine hfirst.trans (.of_follows hmissing hfirst.isOpen ?_)
  rintro op ⟨u, ⟨hlisted, -, -, hclosed⟩, rfl⟩
  have hrows₁ : w₁.store.rows.Filed := hfirst.rows.filed hrows fun op hop => hop.1
  refine ⟨hrows₁.nulFree_of_hasDocument (hrows₁.mem_documentUris.1 hlisted), ?_, nofun⟩
  rintro rfl
  exact Bool.false_ne_true (hclosed.symm.trans hfirst.isOpen)

/-- A request that neither closes nor removes an open document goes past it. -/
theorem bypasses_run (hopen : w.isOpen uri = true) (hrows : w.store.rows.Filed)
    (hr : r.Spares uri) (hnul : ∀ u ∈ r.uris h, NulFree u)
    (hstored : ∀ d, r.MayStore h d → P d) :
    w.Bypasses uri P (r.run h w) ∧
      (r.run h w).opened.get? uri = (r.buffer? h uri).or (w.opened.get? uri) := by
  cases r with
  | call c =>
    rw [run, ← Call.alone_task]
    exact Task.bypasses_alone hopen (spares_task hr) (brings_task hstored)
      (hnul _ (List.mem_singleton_self _))
  | indexListed root files =>
    obtain ⟨w₁, hfiles, hmissing⟩ := w.exists_follows_indexListed h root files
    refine ⟨bypasses_indexListed hopen hrows hnul hstored, ?_⟩
    rw [run, hmissing.opened, hfiles.opened]
    rfl
  | flush =>
    exact ⟨.of_follows Workspace.follows_flush hopen fun op hop => hop, rfl⟩

end Request

namespace Workspace
variable {w : Workspace} {uri : String} {P : Document → Prop} {requests : List (Host × Request)}

theorem serve_concat (w : Workspace) (front : List (Host × Request)) (x : Host × Request) :
    w.serve (front ++ [x]) = x.2.run x.1 (w.serve front) := List.foldl_append

theorem bypasses_serve (hopen : w.isOpen uri = true) (hrows : w.store.rows.Filed)
    (hspares : ∀ x ∈ requests, x.2.Spares uri)
    (hnul : ∀ x ∈ requests, ∀ u ∈ x.2.uris x.1, NulFree u)
    (hstored : ∀ x ∈ requests, ∀ d, x.2.MayStore x.1 d → P d) :
    w.Bypasses uri P (w.serve requests) ∧ (w.serve requests).opened.get? uri =
      (requests.filterMap fun x => x.2.buffer? x.1 uri).getLast?.or (w.opened.get? uri) := by
  induction requests using List.reverseRecOn with
  | nil => exact ⟨⟨hopen, .refl⟩, rfl⟩
  | append_singleton front x ih =>
    have hx : x ∈ front ++ [x] := List.mem_append_right _ List.mem_cons_self
    obtain ⟨hfront, hbuffer⟩ := ih (fun y hy => hspares y (List.mem_append_left _ hy))
      (fun y hy => hnul y (List.mem_append_left _ hy))
      fun y hy => hstored y (List.mem_append_left _ hy)
    have hfiled := hfront.rows.filed hrows fun op hop => hop.1
    obtain ⟨hlast, hlastBuffer⟩ := Request.bypasses_run (h := x.1) (r := x.2) (P := P)
      hfront.isOpen hfiled (hspares x hx) (hnul x hx) (hstored x hx)
    rw [serve_concat]
    refine ⟨hfront.trans hlast, ?_⟩
    rw [hlastBuffer, hbuffer, List.filterMap_append, List.getLast?_append, ← Option.or_assoc]
    congr 1
    cases hgiven : x.2.buffer? x.1 uri <;> simp [hgiven]

end Workspace

/-- As long as a document is open, whatever is asked but to close or to remove it: its rows are
those that it had before, and it is answered from the last text that it was given. Its words are
among the rows if names have no zero characters. -/
theorem open_document_bypassed {w : Workspace} {uri : String} (hopen : w.isOpen uri = true)
    (huri : NulFree uri) (hrows : w.store.rows.Filed) {requests : List (Host × Request)}
    (hspares : ∀ x ∈ requests, x.2.Spares uri)
    (hnul : ∀ x ∈ requests, ∀ u ∈ x.2.uris x.1, NulFree u) :
    ∀ front, front <+: requests → let w' := w.serve front
      (∀ (p : IndexPart) k, p.Owns uri k →
        (p.IsWords → w.store.rows.Plain ∧ ∀ x ∈ requests, ∀ d, x.2.MayStore x.1 d →
          ∀ s ∈ d.symbols, s.Fits ∧ s.Plain) →
        w'.store.rows.get? (p.table.key k) = w.store.rows.get? (p.table.key k)) ∧
      ∃ d, (front.filterMap fun x => x.2.buffer? x.1 uri).getLast?.or (w.opened.get? uri) =
        some d ∧ w'.AnswersFrom uri d := by
  intro front hfront
  have hin {x : Host × Request} (hx : x ∈ front) : x ∈ requests := hfront.subset hx
  constructor
  · intro p k hk hplain
    obtain ⟨hbypass, -⟩ := Workspace.bypasses_serve
      (P := fun d => p.IsWords → ∀ s ∈ d.symbols, s.Fits ∧ s.Plain) hopen hrows
      (fun x hx => hspares x (hin hx)) (fun x hx => hnul x (hin hx))
      fun x hx d hd hp => (hplain hp).2 x (hin hx) d hd
    refine hbypass.rows.get?_of_others (fun op hop => ⟨hop.1, hop.2.1⟩) huri hk fun hp => ?_
    refine ⟨(hplain hp).1, fun op hop => ?_⟩
    cases op with
    | replace v =>
      obtain ⟨d, now, hd, rfl⟩ := hop.2.2 v rfl
      exact hd hp
    | remove removed => trivial
  · obtain ⟨hbypass, hbuffer⟩ := Workspace.bypasses_serve (P := fun _ => True) hopen hrows
      (fun x hx => hspares x (hin hx)) (fun x hx => hnul x (hin hx)) fun _ _ _ _ => trivial
    obtain ⟨d, hd⟩ := Option.isSome_iff_exists.1 hbypass.isOpen
    exact ⟨d, hbuffer ▸ hd, Workspace.answersFrom_of_get? hd⟩

/-! ## A file that is edited, and removed -/

/-- What is read on such a host declares nothing. -/
theorem symbols_of_readFile {h : Host} (hgrammar : h.grammar = Host.blank.grammar)
    {uri : String} {modified : Int64} {d : Document}
    (hread : Workspace.readFile h uri modified = .ok d) : d.symbols = [] := by
  unfold Workspace.readFile at hread
  split at hread
  · cases hread
  · split at hread
    · cases hread
      rw [Host.parse, hgrammar]
      rfl
    · cases hread

theorem Workspace.regular_indexDocument {h : Host} {w : Workspace} {d : Document}
    (hw : w.store.rows.Regular) (hd : (Operation.replace (d.version h.now)).Regular) :
    (w.indexDocument h d).1.store.rows.Regular := by
  unfold indexDocument
  split
  · exact hw
  · exact (follows_operate hd).rows.regular hw fun _ hop => hop

theorem Workspace.regular_openDocument {h : Host} {w : Workspace} {uri text : String}
    (hw : w.store.rows.Regular) : (w.openDocument h uri text).1.store.rows.Regular := hw

/-- A document that is indexed and then opened with another text. -/
def openedAfterIndexing (uri name : String) : Workspace :=
  ((Workspace.blank.indexDocument .blank (functionDocument uri name)).1.openDocument .blank uri "").1

theorem regular_openedAfterIndexing {uri name : String}
    (hd : (Operation.replace ((functionDocument uri name).version 0)).Regular) :
    (openedAfterIndexing uri name).store.rows.Regular := by
  have hstored := Workspace.regular_indexDocument (h := .blank) (w := .blank) .empty hd
  rw [openedAfterIndexing]
  exact Workspace.regular_openDocument hstored

/-- The file is there and changed, is edited, and is gone. -/
def whileOpen : List (Host × Request) :=
  [(.withFile "/a.php" "<?php" 5, .indexListed "/" ["/a.php"]),
    (.withFile "/a.php" "<?php" 7, .call (.sync "file:///a.php" 7)),
    (.blank, .call (.edit "file:///a.php" "<?php g();")),
    (.blank, .call (.index (functionDocument "file:///b.php" "g"))),
    (.blank, .indexListed "/" [])]

theorem open_document_bypassed_while_edited :
    let w := openedAfterIndexing "file:///a.php" "f"
    w.isOpen "file:///a.php" = true ∧ w.store.rows.HasDocument "file:///a.php" ∧
      (∀ (p : IndexPart) k, p.Owns "file:///a.php" k →
        (w.serve whileOpen).store.rows.get? (p.table.key k) = w.store.rows.get? (p.table.key k)) ∧
      (w.serve whileOpen).AnswersFrom "file:///a.php"
        (Host.blank.parse "file:///a.php" "<?php g();" 0) := by
  intro w
  have hopen : w.isOpen "file:///a.php" = true := by decide +kernel
  have hrows : w.store.rows.Regular := regular_openedAfterIndexing
    ⟨by decide, by decide, by rintro v hv; cases hv; decide +kernel⟩
  have hspares : ∀ x ∈ whileOpen, x.2.Spares "file:///a.php" := by
    simp [whileOpen, Request.Spares]
  have hnul : ∀ x ∈ whileOpen, ∀ u ∈ x.2.uris x.1, NulFree u := by decide +kernel
  obtain ⟨hsame, d, hd, hanswers⟩ :=
    open_document_bypassed hopen (by decide) hrows.isFiled hspares hnul whileOpen
      (List.prefix_refl _)
  refine ⟨hopen, by decide +kernel, fun p k hk => hsame p k hk fun _ => ⟨hrows.plain, ?_⟩, ?_⟩
  · intro x hx d hd s hs
    simp only [whileOpen, List.mem_cons, List.not_mem_nil, or_false] at hx
    rcases hd with hindex | ⟨_, -, _, hread⟩
    · obtain rfl : d = functionDocument "file:///b.php" "g" := by
        rcases hx with rfl | rfl | rfl | rfl | rfl <;> cases hindex
        rfl
      revert s
      decide
    · have hgrammar : x.1.grammar = Host.blank.grammar := by
        rcases hx with rfl | rfl | rfl | rfl | rfl <;> rfl
      rw [symbols_of_readFile hgrammar hread] at hs
      cases hs
  · have hlast : (whileOpen.filterMap fun x => x.2.buffer? x.1 "file:///a.php").getLast? =
        some (Host.blank.parse "file:///a.php" "<?php g();" 0) := rfl
    rw [hlast] at hd
    cases hd
    exact hanswers

/-- The request to remove a document does not look whether it is open. -/
theorem open_document_removed :
    let w := openedAfterIndexing "file:///a.php" "f"
    let w' := w.serve [(.blank, .call (.remove "file:///a.php"))]
    w.isOpen "file:///a.php" = true ∧ w'.isOpen "file:///a.php" = true ∧
      w.store.rows.HasDocument "file:///a.php" ∧ ¬ w'.store.rows.HasDocument "file:///a.php" := by
  decide +kernel

end PhpIndex
