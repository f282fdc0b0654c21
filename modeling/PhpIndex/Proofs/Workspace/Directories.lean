import PhpIndex.Proofs.Index.Filing
import PhpIndex.Proofs.Workspace.Tasks

/-!
# Whole directories

What bringing a directory up to date does to the store, as operations on it: the documents of files
that were read are put in place of their last versions, and then stored documents are removed that
were neither seen nor are open. What is to be done about a file is told by the host and the
workspace before anything of it is done.
Main statements: `Workspace.indexPath_eq`, `Workspace.follows_foldl`,
`Workspace.follows_removeMissing`, `Workspace.exists_follows_indexListed`.
-/
namespace PhpIndex
namespace Workspace

/-- The document as which a file is to be stored, if it is not to be left. -/
def plan (h : Host) (w : Workspace) (path : String) : Except IndexError (Option Document) :=
  match h.modified path with
  | .error fault => .error (.fileRead path fault)
  | .ok modified =>
    match w.isSettled (Path.toUri h.cwd path) modified with
    | .error e => .error e
    | .ok true => .ok none
    | .ok false => (readFile h (Path.toUri h.cwd path) modified).map some

section Files
variable {h : Host} {w : Workspace} {path : String} {d : Document}

/-- A document is stored if its file can be read and its stored version is not of that time. -/
theorem of_plan_eq_some (hplan : w.plan h path = .ok (some d)) : ∃ modified,
    h.modified path = .ok modified ∧ w.isSettled (Path.toUri h.cwd path) modified = .ok false ∧
      readFile h (Path.toUri h.cwd path) modified = .ok d := by
  unfold plan at hplan
  split at hplan
  · cases hplan
  · next modified hmodified =>
    split at hplan
    · cases hplan
    · cases hplan
    · next hsettled =>
      obtain ⟨d', hread, hd⟩ := map_eq_ok hplan
      obtain rfl := Option.some.inj hd
      exact ⟨modified, hmodified, hsettled, hread⟩

theorem uri_of_plan (hplan : w.plan h path = .ok (some d)) : d.uri = Path.toUri h.cwd path := by
  obtain ⟨_, -, -, hread⟩ := of_plan_eq_some hplan
  exact (uri_readFile hread).1

theorem not_isOpen_of_isSettled {uri : String} {modified : Int64}
    (hsettled : w.isSettled uri modified = .ok false) : w.isOpen uri = false := by
  unfold isSettled at hsettled
  cases hopen : w.isOpen uri with
  | false => rfl
  | true =>
    rw [hopen] at hsettled
    cases hsettled

theorem not_isOpen_of_plan (hplan : w.plan h path = .ok (some d)) : w.isOpen d.uri = false := by
  obtain ⟨_, -, hsettled, -⟩ := of_plan_eq_some hplan
  rw [uri_of_plan hplan]
  exact not_isOpen_of_isSettled hsettled

/-- A file is brought up to date as planned. -/
theorem indexPath_eq (h : Host) (w : Workspace) (path : String) : w.indexPath h path =
    match w.plan h path with
    | .error e => (w, .error e)
    | .ok none => (w, .ok .unchanged)
    | .ok (some d) => (w.operate (.replace (d.version h.now))).map id
        (·.map fun _ => .indexed d.symbols.length) := by
  unfold indexPath plan sync
  cases h.modified path with
  | error fault => rfl
  | ok modified =>
    simp only
    cases hsettled : w.isSettled (Path.toUri h.cwd path) modified with
    | error e => rfl
    | ok settled =>
      cases settled with
      | true => rfl
      | false =>
        simp only [indexFromDisk]
        cases hread : readFile h (Path.toUri h.cwd path) modified with
        | error e => rfl
        | ok d =>
          obtain ⟨huri, hmodified⟩ := uri_readFile hread
          have hpassed : w.isPassed false d = .ok false := by
            rw [isPassed, if_neg Bool.false_ne_true, huri, hmodified, hsettled]
          simp only [commit_eq, hpassed]
          rfl

end Files

/-! ## What is done to the rows -/

section Rows

/-- Whether the operation stores a file that is listed and not open. -/
def StoresListed (h : Host) (w : Workspace) (files : List String) (op : Operation) : Prop :=
  ∃ path ∈ files, ∃ modified d, readFile h (Path.toUri h.cwd path) modified = .ok d ∧
    w.isOpen d.uri = false ∧ op = .replace (d.version h.now)

/-- Whether a stored document below the directory was not seen and is not open. -/
def IsMissing (h : Host) (w : Workspace) (root : String) (seen : List String) (uri : String) :
    Prop :=
  uri ∈ w.store.rows.documentUris ∧ Text.startsWith (uriLead h root) uri = true ∧ uri ∉ seen ∧
    w.isOpen uri = false

/-- What follows when only the store is operated on. -/
structure Follows (allowed : Operation → Prop) (w w' : Workspace) : Prop where
  settings : w'.settings = w.settings
  opened : w'.opened = w.opened
  rows : w.store.rows.LeadsTo allowed w'.store.rows

variable {allowed : Operation → Prop} {h : Host} {w w' w'' : Workspace}

theorem Follows.refl : Follows allowed w w := ⟨rfl, rfl, .refl⟩

theorem Follows.trans (hfront : Follows allowed w w') (hback : Follows allowed w' w'') :
    Follows allowed w w'' :=
  ⟨hback.settings.trans hfront.settings, hback.opened.trans hfront.opened,
    hfront.rows.trans hback.rows⟩

theorem Follows.mono {more : Operation → Prop} (hw : Follows allowed w w')
    (hmore : ∀ op, allowed op → more op) : Follows more w w' :=
  ⟨hw.settings, hw.opened, hw.rows.mono hmore⟩

theorem Follows.isOpen (hw : Follows allowed w w') (uri : String) :
    w'.isOpen uri = w.isOpen uri := by
  rw [Workspace.isOpen, hw.opened, Workspace.isOpen]

theorem follows_operate {op : Operation} (hop : allowed op) :
    Follows allowed w (w.operate op).1 := by
  rcases w.operate_cases op with ⟨s', hrun, heq⟩ | ⟨e, -, heq⟩
  · rw [heq]
    exact ⟨rfl, rfl, .of_run hop hrun⟩
  · rw [heq]
    exact .refl

theorem follows_indexPath {files : List String} {path : String} (hpath : path ∈ files) :
    Follows (StoresListed h w files) w (w.indexPath h path).1 := by
  rw [indexPath_eq]
  split
  · exact .refl
  · exact .refl
  · next d hplan =>
    obtain ⟨modified, -, -, hread⟩ := of_plan_eq_some hplan
    exact follows_operate ⟨path, hpath, modified, d, hread, not_isOpen_of_plan hplan, rfl⟩

theorem fst_indexCounted (acc : Workspace × IndexReport) (path : String) :
    (indexCounted h acc path).1 = (acc.1.indexPath h path).1 := by
  obtain ⟨w, report⟩ := acc
  simp only [indexCounted]
  rcases w.indexPath h path with ⟨w', e | symbols | _⟩ <;> rfl

theorem follows_foldl (files : List String) (report : IndexReport) :
    Follows (StoresListed h w files) w (files.foldl (indexCounted h) (w, report)).1 := by
  suffices hrun : ∀ rest ⊆ files, ∀ acc : Workspace × IndexReport,
      Follows (StoresListed h w files) w acc.1 →
        Follows (StoresListed h w files) w (rest.foldl (indexCounted h) acc).1 from
    hrun files (List.Subset.refl _) _ .refl
  intro rest hrest
  induction rest with
  | nil => exact fun acc hacc => hacc
  | cons path rest ih =>
    obtain ⟨hpath, hrest⟩ := List.cons_subset.1 hrest
    intro acc hacc
    refine ih hrest _ ?_
    rw [fst_indexCounted]
    refine hacc.trans ((follows_indexPath hpath).mono ?_)
    rintro op ⟨path, hpath, modified, d, hread, hopen, rfl⟩
    exact ⟨path, hpath, modified, d, hread, (hacc.isOpen d.uri).symm.trans hopen, rfl⟩

theorem follows_removeAll (uris : List String) (count : Nat) :
    Follows (fun op => ∃ uri ∈ uris, op = .remove uri) w (w.removeAll count uris).1 := by
  induction uris generalizing w count with
  | nil => exact .refl
  | cons uri rest ih =>
    have hfirst : Follows (fun op => ∃ u ∈ uri :: rest, op = .remove u) w (w.remove uri).1 := by
      have hremove := congrArg Prod.fst (remove_eq w uri)
      simp only [Prod.map_fst, id_eq] at hremove
      rw [hremove]
      exact follows_operate ⟨uri, List.mem_cons_self, rfl⟩
    unfold removeAll
    split
    · next w₁ existed hremove =>
      rw [hremove] at hfirst
      refine hfirst.trans ((ih _).mono ?_)
      rintro op ⟨u, hu, rfl⟩
      exact ⟨u, List.mem_cons_of_mem _ hu, rfl⟩
    · next w₁ e hremove =>
      rw [hremove] at hfirst
      exact hfirst

theorem ask_uris (w : Workspace) : w.ask Index.uris = .ok w.store.rows.documentUris := by
  rw [ask, Rows.run_uris]
  rfl

/-- The documents that are missing, as they are listed. -/
def missing (h : Host) (w : Workspace) (root : String) (seen : List String) : List String :=
  w.store.rows.documentUris.filter fun uri =>
    Text.startsWith (uriLead h root) uri && !(decide (uri ∈ seen)) && !w.isOpen uri

theorem mem_missing {root : String} {seen : List String} {uri : String} :
    uri ∈ missing h w root seen ↔ IsMissing h w root seen uri := by
  simp [missing, IsMissing, and_assoc]

theorem removeMissing_eq (h : Host) (w : Workspace) (root : String) (seen : List String) :
    w.removeMissing h root seen = w.removeAll 0 (missing h w root seen) := by
  rw [removeMissing, ask_uris]
  rfl

theorem follows_removeMissing (root : String) (seen : List String) :
    Follows (fun op => ∃ uri, IsMissing h w root seen uri ∧ op = .remove uri) w
      (w.removeMissing h root seen).1 := by
  rw [removeMissing_eq]
  refine (follows_removeAll _ 0).mono ?_
  rintro op ⟨uri, huri, rfl⟩
  exact ⟨uri, mem_missing.1 huri, rfl⟩

theorem rows_flush (s : Store) (write : Bytes → StateM Disk (Except FileFault Unit))
    (disk : Disk) : (s.flush write disk).1.1.rows = s.rows := by
  unfold Store.flush Store.flushWith
  cases s.pending? Lz4.pack with
  | none => rfl
  | some bytes =>
    rcases hwrite : write bytes disk with ⟨fault | _, disk'⟩
    · simp only [bind, StateT.bind, hwrite]
      rfl
    · simp only [bind, StateT.bind, hwrite]
      change s.saved.rows = s.rows
      unfold Store.saved
      split <;> rfl

/-- To save the store changes neither its rows nor anything else of the workspace. -/
theorem flush_eq (h : Host) (w : Workspace) : (w.flush h).1.settings = w.settings ∧
    (w.flush h).1.opened = w.opened ∧ (w.flush h).1.store.rows = w.store.rows :=
  ⟨rfl, rfl, rows_flush _ _ _⟩

theorem follows_flush : Follows allowed w (w.flush h).1 := by
  obtain ⟨hsettings, hopened, hrows⟩ := flush_eq h w
  exact ⟨hsettings, hopened, hrows ▸ .refl⟩

/-! ## The run as a whole -/

/-- What is left to do when all files were brought up to date. -/
def finishIndexing (h : Host) (w : Workspace) (report : IndexReport) (root : String)
    (files : List String) : Workspace × Disk × Except IndexError IndexReport :=
  match w.removeMissing h root (files.map (Path.toUri h.cwd)) with
  | (w, .error e) => (w, h.disk, .error e)
  | (w, .ok removed) =>
    let (w, disk, done) := w.flush h
    (w, disk, done.map (fun _ => { report with removed }))

theorem indexListed_eq (h : Host) (w : Workspace) (root : String) (files : List String) :
    w.indexListed h root files = finishIndexing h (files.foldl (indexCounted h) (w, {})).1
      (files.foldl (indexCounted h) (w, {})).2 root files := by
  unfold indexListed
  generalize files.foldl (indexCounted h) (w, {}) = acc
  rfl

theorem follows_finishIndexing (report : IndexReport) (root : String) (files : List String) :
    Follows (fun op => ∃ uri, IsMissing h w root (files.map (Path.toUri h.cwd)) uri ∧
      op = .remove uri) w (w.finishIndexing h report root files).1 := by
  have hremoved := follows_removeMissing (h := h) (w := w) root (files.map (Path.toUri h.cwd))
  unfold finishIndexing
  split
  · next w₁ e heq =>
    rw [heq] at hremoved
    exact hremoved
  · next w₁ removed heq =>
    rw [heq] at hremoved
    have hsaved : Follows _ w (w₁.flush h).1 := hremoved.trans follows_flush
    generalize w₁.flush h = saved at hsaved ⊢
    exact hsaved

/-- First listed files are stored, and then missing documents are removed. -/
theorem exists_follows_indexListed (h : Host) (w : Workspace) (root : String)
    (files : List String) : ∃ w₁, Follows (StoresListed h w files) w w₁ ∧
      Follows (fun op => ∃ uri, IsMissing h w₁ root (files.map (Path.toUri h.cwd)) uri ∧
        op = .remove uri) w₁ (w.indexListed h root files).1 := by
  rw [indexListed_eq]
  exact ⟨_, follows_foldl _ {}, follows_finishIndexing _ root _⟩

end Rows
end Workspace
end PhpIndex
