import PhpIndex.Command.Run
import PhpIndex.Proofs.Workspace.Spellings

/-!
# Listing the declarations of a file

To list the declarations of a file is to bring one document up to date and to ask for one. The
first has the uri of the path as the user has spelled it, the second that of the canonical path.
Where these are one uri, every spelling lists the same. Where they are not, what was read is filed
apart from what is listed, which is what the index has held before.
Main statements: `Shell.run_symbols_of_uri_eq`, `Shell.run_symbols_of_uri_ne`,
`symbols_listed_by_uri`, `symbols_missed_by_detour`.
-/
namespace PhpIndex

/-! ## Commands as functions of the disk -/

namespace Shell
variable {s : Shell} {disk disk' : Disk} {α β : Type} {m : Run α} {f g : α → Run β}

/-- The host with the disk as a command meets it. -/
abbrev hostOn (s : Shell) (disk : Disk) : Host := { s.host with disk }

theorem run_bind (m : Run α) (f : α → Run β) (disk : Disk) : (m >>= f).run disk =
    match m.run disk with
    | (.ok a, disk') => (f a).run disk'
    | (.error e, disk') => (.error e, disk') := by
  simp only [bind, ExceptT.run, ExceptT.bind, ExceptT.mk, StateT.bind]
  rcases (m disk : Except CommandFault α × Disk) with ⟨e | a, disk'⟩ <;> rfl

/-- What follows a command counts only where it follows. -/
theorem run_bind_congr (h : ∀ a disk', m.run disk = (.ok a, disk') →
    (f a).run disk' = (g a).run disk') : (m >>= f).run disk = (m >>= g).run disk := by
  rw [run_bind, run_bind]
  rcases hm : m.run disk with ⟨e | a, disk'⟩
  · rfl
  · exact h a disk' hm

theorem run_current (s : Shell) (disk : Disk) :
    s.current.run disk = (.ok (s.hostOn disk), disk) := rfl

theorem run_openWorkspace (settings : Settings) : (s.openWorkspace settings).run disk =
    ((Workspace.load (s.hostOn disk) settings).2.mapError .index,
      (Workspace.load (s.hostOn disk) settings).1) := rfl

theorem run_refresh (w : Workspace) (file : String) : (s.refresh w file).run disk =
    (((w.indexPath (s.hostOn disk) file).2.mapError .index).map
      fun _ => (w.indexPath (s.hostOn disk) file).1, disk) := by
  refine (run_bind s.current _ disk).trans ?_
  rw [run_current]
  simp only
  rcases w.indexPath (s.hostOn disk) file with ⟨w', e | done⟩ <;> rfl

theorem run_refresh_of_ok {w w' : Workspace} {file : String} {done : SyncOutcome}
    (hindex : w.indexPath (s.hostOn disk) file = (w', .ok done)) :
    (s.refresh w file).run disk = (.ok w', disk) := by
  rw [run_refresh, hindex]
  rfl

theorem of_refresh_eq_ok {w w' : Workspace} {file : String}
    (h : (s.refresh w file).run disk = (.ok w', disk')) :
    disk' = disk ∧ w' = (w.indexPath (s.hostOn disk) file).1 := by
  rw [run_refresh, Prod.mk.injEq] at h
  obtain ⟨hw, rfl⟩ := h
  obtain ⟨done, -, hw⟩ := map_eq_ok hw
  exact ⟨rfl, hw.symm⟩

theorem run_canonical (purpose? : Option String) (file : String) :
    (s.canonical purpose? file).run disk =
      ((disk.canonical (s.host.path file)).mapError (.file purpose?), disk) := rfl

end Shell

/-! ## The index that a command opens -/

namespace Shell
variable {s : Shell} {json : Bool} {settings : Settings} {disk disk' : Disk}
  {file path : String} {w : Workspace}

/-- To open the index adds at most directories to the disk, and opens no documents. -/
theorem of_openWorkspace_eq_ok (h : (s.openWorkspace settings).run disk = (.ok w, disk')) :
    disk.Extends disk' ∧ w.opened = .empty := by
  rw [run_openWorkspace, Prod.mk.injEq] at h
  obtain ⟨hw, rfl⟩ := h
  exact ⟨Workspace.extends_load (s.hostOn disk) settings,
    Workspace.opened_of_load (mapError_eq_ok.1 hw)⟩

/-! ## Listing -/

/-- Lists the declarations that the index holds of a uri. -/
def listDocument (s : Shell) (json : Bool) (uri : String) (w : Workspace) : Run (List String) := do
  s.listSymbols json (← lift .index (w.documentSymbols uri))

/-- What follows when a file was brought up to date in the index that was opened. -/
theorem run_refreshed {β : Type} {f : Workspace → Workspace → Run β} {w' : Workspace}
    {done : SyncOutcome} (hopen : (s.openWorkspace settings).run disk = (.ok w, disk'))
    (hindex : w.indexPath (s.hostOn disk') file = (w', .ok done)) :
    (s.openWorkspace settings >>= fun w => s.refresh w file >>= f w).run disk =
      (f w w').run disk' := by
  rw [run_bind, hopen]
  simp only
  rw [run_bind, run_refresh_of_ok hindex]

/-- The command, once the canonical path is known. -/
theorem run_symbols (hfile : disk.canonical (s.host.path file) = .ok path) :
    (s.symbols json settings file).run disk =
      (s.openWorkspace settings >>= fun w => s.refresh w file >>=
        s.listDocument json (Path.toUri s.host.cwd path)).run disk := by
  refine run_bind_congr fun w disk₁ hopen => run_bind_congr fun w' disk₂ hrefresh => ?_
  obtain ⟨rfl, -⟩ := of_refresh_eq_ok hrefresh
  have hcanonical : (s.canonical none file).run disk₂ = (.ok path, disk₂) := by
    rw [run_canonical, Disk.canonical_of_extends (of_openWorkspace_eq_ok hopen).1 hfile]
    rfl
  rw [run_bind, hcanonical]
  rfl

/-- Spellings with the uri of the canonical path list what the canonical path lists. -/
theorem run_symbols_of_uri_eq (hfile : disk.canonical (s.host.path file) = .ok path)
    (huri : Path.toUri s.host.cwd file = Path.toUri s.host.cwd path) :
    (s.symbols json settings file).run disk = (s.symbols json settings path).run disk := by
  have hpath : disk.canonical (s.host.path path) = .ok path :=
    Host.canonical_of_canonical (h := s.hostOn disk) hfile
  rw [run_symbols hfile, run_symbols hpath]
  refine run_bind_congr fun w disk₁ hopen => ?_
  have hfile₁ := Disk.canonical_of_extends (of_openWorkspace_eq_ok hopen).1 hfile
  have hindex : w.indexPath (s.hostOn disk₁) path =
      w.indexPath (s.hostOn disk₁) file := by
    refine Workspace.indexPath_congr (Host.modified_of_canonical hfile₁) ?_ huri.symm
    obtain ⟨place, entry, hlookup⟩ := Host.exists_lookup (h := s.hostOn disk₁) hfile₁
    exact ⟨entry.modified, congrArg (Except.map _) hlookup⟩
  have hrefresh : (s.refresh w file).run disk₁ = (s.refresh w path).run disk₁ := by
    rw [run_refresh, run_refresh, hindex]
  rw [run_bind, run_bind, hrefresh]

/-- Lists the declarations of the canonical path as the index has held them before. -/
def listBefore (s : Shell) (json : Bool) (settings : Settings) (file path : String) :
    Run (List String) := do
  let w ← s.openWorkspace settings
  let _ ← s.refresh w file
  s.listDocument json (Path.toUri s.host.cwd path) w

/-- Other spellings list what the index has held of the canonical path. -/
theorem run_symbols_of_uri_ne (hfile : disk.canonical (s.host.path file) = .ok path)
    (huri : Path.toUri s.host.cwd file ≠ Path.toUri s.host.cwd path) :
    (s.symbols json settings file).run disk = (s.listBefore json settings file path).run disk := by
  rw [run_symbols hfile]
  refine run_bind_congr fun w disk₁ hopen => run_bind_congr fun w' disk₂ hrefresh => ?_
  obtain ⟨rfl, rfl⟩ := of_refresh_eq_ok hrefresh
  have hfile₁ := Disk.canonical_of_extends (of_openWorkspace_eq_ok hopen).1 hfile
  have hsymbols := Workspace.documentSymbols_indexPath_of_ne (h := s.hostOn disk₂) (w := w) huri
    (Host.nulFree_uri (h := s.hostOn disk₂) hfile₁)
    (Host.nulFree_uri (h := s.hostOn disk₂) (Host.canonical_of_canonical hfile₁))
  rw [listDocument, listDocument, hsymbols]

theorem run_listDocument {uri : String} {listed : List Symbol}
    (hlisted : w.documentSymbols uri = .ok listed) :
    (s.listDocument json uri w).run disk = (s.listSymbols json listed).run disk := by
  rw [listDocument, run_bind, hlisted]
  rfl

/-! ## A file that the index does not hold -/

section Absent
variable (json) {text : String} (hfile : disk.canonical (s.host.path file) = .ok path)
  (htext : disk.readText (s.host.path file) = .ok text)
  (hopen : (s.openWorkspace settings).run disk = (.ok w, disk'))
  (hrows : w.store.rows.Regular)
include hfile htext hopen

/-- The file is there still when the index is open. -/
theorem exists_readable : ∃ modified, (s.hostOn disk').modified file = .ok modified ∧
    (s.hostOn disk').readText file = .ok text := by
  obtain ⟨place, entry, hlookup⟩ := Host.exists_lookup (h := s.hostOn disk) hfile
  have hlookup' := Disk.lookup_of_extends (of_openWorkspace_eq_ok hopen).1 hlookup
  refine ⟨entry.modified, congrArg (Except.map _) hlookup', ?_⟩
  exact (Disk.readText_congr (hlookup'.trans hlookup.symm)).trans htext

include hrows

theorem run_symbols_canonical (hback : '\\' ∉ path.toList)
    (habsent : w.store.rows.AgreeOn (Path.toUri s.host.cwd path) .empty)
    (hregular : (s.host.parse (Path.toUri s.host.cwd path) text 0).Regular) :
    ∃ listed, listed.Perm (((s.host.parse (Path.toUri s.host.cwd path) text 0).version 0).kept.map
        Symbol.normal) ∧
      (s.symbols json settings path).run disk = (s.listSymbols json listed).run disk' := by
  obtain ⟨modified, hmodified, hread⟩ := exists_readable hfile htext hopen
  obtain ⟨hextends, hopened⟩ := of_openWorkspace_eq_ok hopen
  have hfile' := Disk.canonical_of_extends hextends hfile
  obtain ⟨w', done, listed, hindex, hlisted, hperm⟩ := Workspace.exists_listed_indexPath
    ((Host.modified_of_canonical (h := s.hostOn disk') hfile').trans hmodified)
    ((Host.readText_of_canonical (h := s.hostOn disk') hfile').trans hread)
    (by rwa [Path.join_of_isAbsolute (Disk.isAbsolute_of_canonical hfile)]) hrows hopened
    (habsent _ (owned_recordKey _)) hregular
  refine ⟨listed, hperm, ?_⟩
  rw [run_symbols (Host.canonical_of_canonical (h := s.hostOn disk) hfile)]
  exact (run_refreshed hopen hindex).trans (run_listDocument hlisted)

theorem run_symbols_apart (hback : '\\' ∉ (Path.join s.host.cwd file).toList)
    (habsent : w.store.rows.AgreeOn (Path.toUri s.host.cwd path) .empty)
    (huri : Path.toUri s.host.cwd file ≠ Path.toUri s.host.cwd path) :
    (s.symbols json settings file).run disk = (s.listSymbols json []).run disk' := by
  obtain ⟨modified, hmodified, hread⟩ := exists_readable hfile htext hopen
  obtain ⟨-, hopened⟩ := of_openWorkspace_eq_ok hopen
  obtain ⟨w', done, hindex⟩ := Workspace.exists_indexPath hmodified hread hback hrows hopened
  have hnothing : w.documentSymbols (Path.toUri s.host.cwd path) = .ok [] := by
    rw [Workspace.documentSymbols, hopened, Workspace.ask,
      habsent.declareAlike.run_documentSymbols_eq, Index.run_documentSymbols_empty]
    rfl
  rw [run_symbols_of_uri_ne hfile huri]
  exact (run_refreshed hopen hindex).trans (run_listDocument hnothing)

end Absent
end Shell

/-- The declarations of a file are listed by the uri of its canonical path. A spelling with this uri
lists them. Any other, a detour or one through a link, lists what the index has held of them before
it was brought up to date: where the index does not hold the file, that is nothing. Of a path with
backslashes the uri leads elsewhere. -/
theorem symbols_listed_by_uri (s : Shell) (json : Bool) (settings : Settings) {disk : Disk}
    {file path : String} (hfile : disk.canonical (s.host.path file) = .ok path) :
    let uri := Path.toUri s.host.cwd
    let spelled := Path.join s.host.cwd file
    (uri file = uri path →
      (s.symbols json settings file).run disk = (s.symbols json settings path).run disk) ∧
    (uri file ≠ uri path →
      (s.symbols json settings file).run disk =
        (s.listBefore json settings file path).run disk) ∧
    ('\\' ∉ spelled.toList →
      (∀ place target, disk.link? place = some target → '\\' ∉ target.path.toList) →
      '\\' ∉ path.toList) ∧
    ∀ text w disk', disk.readText (s.host.path file) = .ok text →
      '\\' ∉ path.toList →
      (s.host.parse (uri path) text 0).Regular →
      (s.openWorkspace settings).run disk = (.ok w, disk') →
      w.store.rows.Regular → w.store.rows.AgreeOn (uri path) .empty →
      ∃ listed, listed.Perm (((s.host.parse (uri path) text 0).version 0).kept.map
          Symbol.normal) ∧
        (s.symbols json settings path).run disk = (s.listSymbols json listed).run disk' ∧
        ('\\' ∉ spelled.toList →
          (s.symbols json settings file).run disk =
            (s.listSymbols json (if spelled = path then listed else [])).run disk') := by
  intro uri spelled
  refine ⟨Shell.run_symbols_of_uri_eq hfile, Shell.run_symbols_of_uri_ne hfile,
    Host.backslash_not_mem_of_canonical (h := s.hostOn disk) hfile, ?_⟩
  intro text w disk' htext hback hregular hopen hrows habsent
  obtain ⟨listed, hperm, hcanonical⟩ := Shell.run_symbols_canonical json hfile htext hopen hrows
    hback habsent hregular
  refine ⟨listed, hperm, hcanonical, fun hspelled => ?_⟩
  have huri : uri file = uri path ↔ spelled = path := by
    have hpath := Path.join_of_isAbsolute (Disk.isAbsolute_of_canonical hfile) s.host.cwd
    have hiff := Path.toUri_eq_toUri_iff hspelled (hpath.symm ▸ hback)
    rwa [hpath] at hiff
  split_ifs with hsame
  · exact (Shell.run_symbols_of_uri_eq hfile (huri.2 hsame)).trans hcanonical
  · exact Shell.run_symbols_apart json hfile htext hopen hrows hspelled habsent
      (mt huri.1 hsame)

/-! ## A file with a function -/

namespace Shell

def functionText : String := "<?php\nfunction f() \x7b\x7d\n"

def linkName : LinkTarget := ⟨"a.php", by decide, by decide⟩

/-- In the working directory, that of all files, there is a file with a function, a link to it and
nothing else. -/
def withFunction : Shell where
  host :=
    { grammar := fun _ => .ofRows
        [⟨0, "program", ⟨0, 22⟩, none⟩, ⟨1, "php_tag", ⟨0, 5⟩, none⟩,
         ⟨1, "function_definition", ⟨6, 21⟩, none⟩, ⟨2, "function", ⟨6, 14⟩, none⟩,
         ⟨2, "name", ⟨15, 16⟩, some "name"⟩,
         ⟨2, "formal_parameters", ⟨16, 18⟩, some "parameters"⟩, ⟨3, "(", ⟨16, 17⟩, none⟩,
         ⟨3, ")", ⟨17, 18⟩, none⟩, ⟨2, "compound_statement", ⟨19, 21⟩, some "body"⟩,
         ⟨3, "\x7b", ⟨19, 20⟩, none⟩, ⟨3, "\x7d", ⟨20, 21⟩, none⟩]
      disk := ⟨.ofList [("/a.php", .file (Bytes.ofText functionText) 7),
        ("/l.php", .link linkName)]⟩
      cwd := "/"
      now := 9 }
  environment := []
  processors := 1

/-- The same disk with the directory of the index. -/
def indexMade : Disk :=
  ⟨.ofList [("/.phpsense", .directory 9), ("/.phpsense/index", .directory 9),
    ("/a.php", .file (Bytes.ofText functionText) 7), ("/l.php", .link linkName)]⟩

theorem openWorkspace_withFunction :
    (withFunction.openWorkspace (.standard 1)).run withFunction.host.disk =
      (.ok ⟨.standard 1, ⟨.empty, true, false⟩, .empty⟩, indexMade) := by
  have hload : Workspace.load withFunction.host (.standard 1) =
      (indexMade, .ok ⟨.standard 1, ⟨.empty, true, false⟩, .empty⟩) :=
    Workspace.load_of_new rfl (by decide +kernel) (by decide +kernel)
  refine (run_openWorkspace (.standard 1)).trans ?_
  exact congrArg (fun loaded => (loaded.2.mapError CommandFault.index, loaded.1)) hload

/-- The declaration of the function, as it is stored. -/
def listedFunction : Symbol := .function ⟨"f", .of "file:///a.php" ⟨6, 21⟩, .empty, none⟩

theorem kept_withFunction : ((withFunction.host.parse (Path.toUri withFunction.host.cwd "/a.php")
    functionText 0).version 0).kept.map Symbol.normal = [listedFunction] := by
  decide +kernel

end Shell

open Shell

/-- The name of the file is a spelling that lists the function. A detour through the same directory
is not, nor is a link. -/
theorem symbols_listed_by_uri_of_function :
    let s := withFunction
    let disk := s.host.disk
    (∀ file ∈ ["a.php", "./a.php", "l.php"],
      disk.canonical (s.host.path file) = .ok "/a.php") ∧
    (s.symbols false (.standard 1) "a.php").run disk =
      (s.symbols false (.standard 1) "/a.php").run disk ∧
    (s.symbols true (.standard 1) "/a.php").run disk =
      (s.listSymbols true [listedFunction]).run indexMade ∧
    ∀ file ∈ ["./a.php", "l.php"],
      (s.symbols true (.standard 1) file).run disk =
        (s.listBefore true (.standard 1) file "/a.php").run disk ∧
      (s.symbols true (.standard 1) file).run disk = (s.listSymbols true []).run indexMade := by
  intro s disk
  have hfiles : ∀ file ∈ ["a.php", "./a.php", "l.php"],
      disk.canonical (s.host.path file) = .ok "/a.php" := by decide +kernel
  have hlinks : ∀ place target, disk.link? place = some target → '\\' ∉ target.path.toList := by
    intro place target hlink
    obtain ⟨path, hmem⟩ := Disk.mem_entries_of_link? hlink
    have hall : ∀ e ∈ disk.entries.entries, e.2.isFile = true ∨ e.2 = .link linkName := by
      decide +kernel
    rcases hall _ hmem with hentry | hentry
    · cases hentry
    · cases hentry
      decide
  have hapart : ∀ file ∈ ["./a.php", "l.php"],
      disk.readText (s.host.path file) = .ok functionText ∧
      '\\' ∉ (Path.join s.host.cwd file).toList ∧ Path.join s.host.cwd file ≠ "/a.php" ∧
      Path.toUri s.host.cwd file ≠ Path.toUri s.host.cwd "/a.php" := by decide +kernel
  obtain ⟨hsame, -⟩ := symbols_listed_by_uri s false (.standard 1) (hfiles "a.php" (by decide))
  obtain ⟨-, -, hback, habsent⟩ := symbols_listed_by_uri s true (.standard 1)
    (hfiles "a.php" (by decide))
  obtain ⟨listed, hperm, hcanonical, -⟩ := habsent functionText _ _ (by decide +kernel)
    (hback (by decide +kernel) hlinks) (by decide +kernel) openWorkspace_withFunction .empty
    (.refl _ _)
  rw [kept_withFunction, List.perm_singleton] at hperm
  refine ⟨hfiles, hsame (by decide +kernel), hperm ▸ hcanonical, fun file hfile => ?_⟩
  obtain ⟨htext, hspelled, hne, huri⟩ := hapart file hfile
  obtain ⟨-, hbefore, -, habsent⟩ := symbols_listed_by_uri s true (.standard 1)
    (hfiles file (List.mem_cons_of_mem _ hfile))
  obtain ⟨listed, -, -, hlisted⟩ := habsent functionText _ _ htext (by decide)
    (by decide +kernel) openWorkspace_withFunction .empty (.refl _ _)
  rw [if_neg hne] at hlisted
  exact ⟨hbefore huri, hlisted hspelled⟩

theorem Shell.run_loadSettings (s : Shell) (disk : Disk) : (s.loadSettings none).run disk =
    ((Settings.load (s.surroundings disk)).mapError .settings, disk) := rfl

/-- The answer to a line that asks for the declarations of a file. -/
theorem Shell.run_line {s : Shell} {settings : Settings} (json : Bool) (file : String)
    {line : List String}
    (hparse : Invocation.parse s.environment line = .ok ⟨none, false, json, .symbols file⟩)
    (hsettings : Settings.load (s.surroundings s.host.disk) = .ok settings) :
    (s.run line).2 = .ofResult ((s.symbols json settings file).run s.host.disk).1 := by
  have hinvoke : (s.invoke ⟨none, false, json, .symbols file⟩).run s.host.disk =
      (s.symbols json settings file).run s.host.disk := by
    change (s.loadSettings none >>= fun settings => s.symbols json settings file).run _ = _
    rw [run_bind, run_loadSettings, hsettings]
    rfl
  unfold Shell.run
  rw [hparse]
  simp only [hinvoke]
  rfl

/-- The function is listed where its file is asked for by the canonical path, and not where it is
asked for by a detour or through a link. -/
theorem symbols_missed_by_detour :
    (∀ file ∈ ["./a.php", "l.php"],
      withFunction.host.disk.canonical (withFunction.host.path file) = .ok "/a.php") ∧
      (withFunction.run ["symbols", "/a.php"]).2 =
        { code := 0, output := ["function f()  file:///a.php:2"] } ∧
      (withFunction.run ["symbols", "./a.php"]).2 =
        { code := 0, output := ["No symbols found"] } ∧
      (withFunction.run ["symbols", "l.php"]).2 =
        { code := 0, output := ["No symbols found"] } := by
  have hsettings : Settings.load (withFunction.surroundings withFunction.host.disk) =
      .ok (.standard 1) := by decide +kernel
  have hfiles : ∀ file ∈ ["./a.php", "l.php"],
      withFunction.host.disk.canonical (withFunction.host.path file) = .ok "/a.php" := by
    decide +kernel
  have htext : ∀ file ∈ ["./a.php", "l.php"],
      withFunction.host.disk.readText (withFunction.host.path file) = .ok functionText := by
    decide +kernel
  have hmissed (file : String) (hfile : file ∈ ["./a.php", "l.php"])
      (hparse : Invocation.parse withFunction.environment ["symbols", file] =
        .ok ⟨none, false, false, .symbols file⟩)
      (hback : '\\' ∉ (Path.join withFunction.host.cwd file).toList)
      (huri : Path.toUri withFunction.host.cwd file ≠ Path.toUri withFunction.host.cwd "/a.php") :
      (withFunction.run ["symbols", file]).2 = { code := 0, output := ["No symbols found"] } := by
    rw [run_line false file hparse hsettings, run_symbols_apart false (hfiles file hfile)
      (htext file hfile) openWorkspace_withFunction .empty hback (.refl _ _) huri]
    decide +kernel
  refine ⟨hfiles, ?_, hmissed "./a.php" (by decide) (by decide +kernel) (by decide +kernel)
    (by decide +kernel), hmissed "l.php" (by decide) (by decide +kernel) (by decide +kernel)
    (by decide +kernel)⟩
  rw [run_line false "/a.php" (by decide +kernel) hsettings]
  obtain ⟨listed, hperm, hrun⟩ := run_symbols_canonical false (hfiles "./a.php" (by decide))
    (htext "./a.php" (by decide)) openWorkspace_withFunction .empty (by decide) (.refl _ _)
    (by decide +kernel)
  rw [kept_withFunction, List.perm_singleton] at hperm
  rw [hrun, hperm]
  decide +kernel

end PhpIndex
