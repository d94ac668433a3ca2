import SuiteReport.Proofs.Discovery.Locality
import SuiteReport.Proofs.Files.Stability
/-!
# Searching after a file has been written

The search for test files looks at directories, at the names in them and at module files, and at nothing else. So it
finds the same after a file has been written, unless a module file is looked for at the place of the file, or a test
file is new there. The content of the file makes no difference to the search, and what is at other places makes up the
same suites.

## Main definitions

* `Discovery.Unnoticed`: places at which the search does not notice that a file is written.

## Main results

* `Discovery.findModule_written`: the same module is found.
* `Discovery.discovered_written_iff`: the same files are to be found.
* `Discovery.testFiles_written`: the search ends in the same way.
* `Discovery.suiteAt?_written`: the files at other places make up the same suites.
* `Discovery.loadSuites_written`: the same suites are loaded.
-/

namespace SuiteReport.Go.Discovery

variable {fs fs' : FileSystem} {place base directory way excluded : List String} {root : String} {content : Bytes}
  {entries entries' : List (String × FileNode)} {found : GoModule} {files : List TestFile}

/-- Whether the search for test files does not notice that a file is written at a place: no path with the name of
module files leads there, and if the place has the name of a test file, there is one already. -/
structure Unnoticed (fs : FileSystem) (place : List String) : Prop where
  /-- No module file is looked for at the place. -/
  noModule (directory : List String) : ¬ fs.LeadsTo directory "go.mod" place
  /-- A test file at the place is not new. -/
  noTest : (∃ content, fs.node? place = some (.file content)) ∨ ¬ ∃ stem, place.getLast? = some (stem ++ "_test.go")

/-! ### What the search ends with -/

/-- A search that succeeds begins at a directory. -/
theorem exists_directory_of_testFiles (hfs : fs.Proper)
    (hrun : Id.run (testFiles (fs.view base) root excluded) = .ok (found, files)) :
    ∃ directory entries, fs.resolve base root = .ok directory ∧ fs.node? directory = some (.directory entries) := by
  rw [run_testFiles, run_findModule] at hrun
  cases hresolve : fs.resolve base root with
  | error e => simp [hresolve, Except.toOption] at hrun
  | ok directory =>
      by_cases hdir : fs.isDirectory base (Path.ofNames directory) = true
      · obtain ⟨entries, hentries⟩ := FileSystem.exists_node?_of_isDirectory hfs hresolve hdir
        exact ⟨directory, entries, rfl, hentries⟩
      · simp [hresolve, Except.toOption, hdir] at hrun

/-- Every file that is found lies at the end of a way. -/
theorem exists_discovered_of_mem (hfs : fs.Proper)
    (hrun : Id.run (testFiles (fs.view base) root excluded) = .ok (found, files)) :
    ∃ directory, ∀ f ∈ files, ∃ way,
      Discovered fs excluded directory way ∧ f = TestFile.ofNames found directory way := by
  obtain ⟨directory, entries, hroot, hdir⟩ := exists_directory_of_testFiles hfs hrun
  obtain ⟨-, rfl⟩ := (testFiles_eq_ok_iff hfs hroot hdir).1 hrun
  refine ⟨directory, fun f hf => ?_⟩
  obtain ⟨way, hway, rfl⟩ := List.mem_map.1 hf
  exact ⟨way, (mem_sortedWays_iff hfs hdir).1 hway, rfl⟩

/-- The path of a file that is to be found leads to it. -/
theorem Discovered.locate_path (h : Discovered fs excluded directory way) (hfs : fs.Proper) (found : GoModule)
    (base : List String) :
    fs.locate base (TestFile.ofNames found directory way).path = .ok (.existing (directory ++ way)) := by
  obtain ⟨content, hfile⟩ := h.file
  exact FileSystem.locate_ofNames_of_file hfs hfile (by simp [h.ne_nil]) base

/-- The path of a file that is to be found leads nowhere else. -/
theorem Discovered.leadsTo_path_iff (h : Discovered fs excluded directory way) (hfs : fs.Proper) (found : GoModule)
    (base place : List String) :
    fs.LeadsTo base (TestFile.ofNames found directory way).path place ↔ directory ++ way = place := by
  have located := h.locate_path hfs found base
  constructor
  · rintro ⟨p, hp, rfl⟩
    obtain rfl := Except.ok.inj (located.symm.trans hp)
    rfl
  · rintro rfl
    exact ⟨_, located, rfl⟩

/-- No file is found twice. -/
theorem nodup_files (hfs : fs.Proper)
    (hrun : Id.run (testFiles (fs.view base) root excluded) = .ok (found, files)) : files.Nodup := by
  obtain ⟨directory, entries, hroot, hdir⟩ := exists_directory_of_testFiles hfs hrun
  obtain ⟨-, rfl⟩ := (testFiles_eq_ok_iff hfs hroot hdir).1 hrun
  refine List.pairwise_map.2 ((pairwise_sortedWays hfs hdir).imp fun hlt heq => ?_)
  exact hlt.ne (congrArg TestFile.relativePath heq)

/-- The suite of a file depends on what is read of it. -/
theorem suiteAt?_eq (fs : FileSystem) (base : List String) (settings : Settings) (f : TestFile) :
    suiteAt? fs base settings f = (fs.read base f.path).toOption.bind (suiteOf settings f) := by
  rw [suiteAt?]
  cases fs.read base f.path <;> rfl

/-- Files at other places make up the same suites after a file has been written. -/
theorem suiteAt?_written (h : fs.Written place content fs') {f : TestFile} (hf : ¬ fs.LeadsTo base f.path place)
    (settings : Settings) : suiteAt? fs' base settings f = suiteAt? fs base settings f := by
  rw [suiteAt?_eq, suiteAt?_eq, h.toOption_read hf]

section Written

variable (h : fs.Written place content fs') (hplace : Unnoticed fs place)

include h hplace

/-! ### Modules -/

/-- Directories have the module files that they had. -/
theorem isFile_written (directory : List String) : fs'.isFile directory "go.mod" = fs.isFile directory "go.mod" :=
  h.isFile_eq (hplace.noModule directory)

/-- The module files that there are have the content that they had. -/
theorem read_written (hfile : fs.isFile directory "go.mod" = true) :
    fs'.read directory "go.mod" = fs.read directory "go.mod" := by
  rw [FileSystem.isFile_eq_isSome] at hfile
  obtain ⟨text, hread⟩ := Option.isSome_iff_exists.1 hfile
  rw [toOption_eq_some_iff] at hread
  rw [hread, h.read_of_read (hplace.noModule directory) hread]

/-- The search for a module goes the same way upwards. The induction is from the root directory down. -/
theorem moduleOf_written (hfs : fs.Proper) (hfs' : fs'.Proper) (hdir : fs.node? directory = some (.directory entries)) :
    Id.run (moduleOf (fs'.view base) root (Path.ancestors directory)) =
      Id.run (moduleOf (fs.view base) root (Path.ancestors directory)) := by
  -- What is found at one directory and, if it has no module file, further up.
  have step {directory : List String} {entries : List (String × FileNode)} {further : List (List String)}
      (hdir : fs.node? directory = some (.directory entries))
      (hfurther : Id.run (moduleOf (fs'.view base) root further) = Id.run (moduleOf (fs.view base) root further)) :
      Id.run (moduleOf (fs'.view base) root (directory :: further)) =
        Id.run (moduleOf (fs.view base) root (directory :: further)) := by
    obtain ⟨entries', hdir'⟩ := h.exists_directory hdir
    have sameFile : fs'.isFile base (Path.join (Path.ofNames directory) GoModule.fileName) =
        fs.isFile base (Path.join (Path.ofNames directory) GoModule.fileName) :=
      (FileSystem.isFile_join hfs' hdir' isName_fileName base).trans
        ((isFile_written h hplace directory).trans (FileSystem.isFile_join hfs hdir isName_fileName base).symm)
    rw [run_moduleOf_cons, run_moduleOf_cons, sameFile, hfurther]
    by_cases hfile : fs.isFile base (Path.join (Path.ofNames directory) GoModule.fileName) = true
    · have sameText : fs'.read base (Path.join (Path.ofNames directory) GoModule.fileName) =
          fs.read base (Path.join (Path.ofNames directory) GoModule.fileName) := by
        have declared := (FileSystem.isFile_join hfs hdir isName_fileName base).symm.trans hfile
        rw [GoModule.fileName, FileSystem.read_join hfs' hdir' isName_fileName, read_written h hplace declared,
          FileSystem.read_join hfs hdir isName_fileName]
      rw [if_pos hfile, if_pos hfile, run_readText, run_readText, sameText]
    · rw [if_neg hfile, if_neg hfile]
  induction directory using List.reverseRecOn generalizing entries with
  | nil =>
      have root : Path.ancestors [] = [[]] := rfl
      rw [root]
      exact step hdir rfl
  | append_singleton outer name ih =>
      obtain ⟨siblings, houter⟩ := FileSystem.exists_of_node?_append hdir (List.cons_ne_nil _ _)
      rw [ancestors_concat]
      exact step hdir (ih houter)

/-- **The same module is found**, or none is for the same reason. -/
theorem findModule_written (hfs : fs.Proper) (hfs' : fs'.Proper) (base : List String) (root : String) :
    Id.run (findModule (fs'.view base) root) = Id.run (findModule (fs.view base) root) := by
  rw [run_findModule, run_findModule]
  by_cases hroot : fs.LeadsTo base root place
  · -- There is the file now, and what was there before was no directory either.
    have file : fs'.isDirectory base (Path.ofNames place) = false :=
      FileSystem.isDirectory_ofNames_of_file hfs' h.after base
    have located : (fs'.resolve base root).toOption = some place := by
      rw [FileSystem.resolve, h.locate_of_leadsTo hroot]
      rfl
    obtain ⟨p, hp, rfl⟩ := hroot
    simp only [located, file, Bool.false_eq_true, if_false]
    cases p with
    | vacant names => simp [FileSystem.resolve, hp, Except.toOption]
    | existing names =>
        rw [h.isDirectory_eq] at file
        rw [Place.names] at file
        simp [FileSystem.resolve, hp, Except.toOption, file]
  · rw [h.toOption_resolve hroot]
    cases hresolve : fs.resolve base root with
    | error e => rfl
    | ok directory =>
        simp only [Except.toOption, h.isDirectory_eq]
        split
        · next hdir =>
            obtain ⟨entries, hdir⟩ := FileSystem.exists_node?_of_isDirectory hfs hresolve hdir
            rw [moduleOf_written h hplace hfs hfs' hdir]
        · rfl

/-! ### Files -/

/-- The same directories are left out. -/
theorem skipped_written_iff (directory : List String) :
    Skipped fs' excluded directory ↔ Skipped fs excluded directory := by
  rw [Skipped, Skipped, isFile_written h hplace]

/-- **The same files are to be found.** -/
theorem discovered_written_iff : Discovered fs' excluded directory way ↔ Discovered fs excluded directory way := by
  have reached : Open fs' excluded directory way.dropLast ↔ Open fs excluded directory way.dropLast := by
    simp only [Open, skipped_written_iff h hplace]
  have file (hname : ∃ stem, way.getLast? = some (stem ++ "_test.go")) :
      (∃ text, fs'.node? (directory ++ way) = some (.file text)) ↔
        ∃ text, fs.node? (directory ++ way) = some (.file text) := by
    by_cases hway : directory ++ way = place
    · refine iff_of_true ⟨content, hway ▸ h.after⟩ ?_
      rcases hplace.noTest with hold | hnew
      · exact hway ▸ hold
      · obtain ⟨stem, hstem⟩ := hname
        refine absurd ⟨stem, ?_⟩ hnew
        rw [← hway, List.getLast?_append, hstem, Option.some_or]
    · have same := h.elsewhere _ hway
      constructor
      · rintro ⟨text, htext⟩
        obtain ⟨node, hnode, hbare⟩ := FileNode.exists_of_map_bare same.symm htext
        exact ⟨text, by rw [hnode, FileNode.eq_file_of_bare hbare]⟩
      · rintro ⟨text, htext⟩
        obtain ⟨node, hnode, hbare⟩ := FileNode.exists_of_map_bare same htext
        exact ⟨text, by rw [hnode, FileNode.eq_file_of_bare hbare]⟩
  constructor
  · rintro ⟨hfile, hname, hreached⟩
    exact ⟨(file hname).1 hfile, hname, reached.1 hreached⟩
  · rintro ⟨hfile, hname, hreached⟩
    exact ⟨(file hname).2 hfile, hname, reached.2 hreached⟩

/-- The files are found in the same order. -/
theorem sortedWays_written (hfs : fs.Proper) (hfs' : fs'.Proper)
    (hdir : fs.node? directory = some (.directory entries)) (hdir' : fs'.node? directory = some (.directory entries')) :
    sortedWays fs' excluded directory entries' = sortedWays fs excluded directory entries := by
  have member (w : List String) :
      w ∈ sortedWays fs' excluded directory entries' ↔ w ∈ sortedWays fs excluded directory entries := by
    rw [mem_sortedWays_iff hfs' hdir', mem_sortedWays_iff hfs hdir, discovered_written_iff h hplace]
  -- Lists with the same members that strictly increase are the same.
  refine List.Perm.eq_of_pairwise (fun a b _ _ hlt hgt => absurd hgt hlt.asymm) (pairwise_sortedWays hfs' hdir')
    (pairwise_sortedWays hfs hdir) ?_
  exact (List.perm_ext_iff_of_nodup (nodup_sortedWays (hfs'.of_node? hdir').2)
    (nodup_sortedWays (hfs.of_node? hdir).2)).2 member

/-- **The search ends in the same way**: with the same files, or with the same error. -/
theorem testFiles_written (hfs : fs.Proper) (hfs' : fs'.Proper) (base : List String) (root : String)
    (excluded : List String) :
    Id.run (testFiles (fs'.view base) root excluded) = Id.run (testFiles (fs.view base) root excluded) := by
  have search := findModule_written h hplace hfs hfs' base root
  cases hrun : Id.run (testFiles (fs.view base) root excluded) with
  | error e =>
      rw [run_testFiles] at hrun ⊢
      rw [search]
      cases hfind : Id.run (findModule (fs.view base) root) with
      | error e' => rw [hfind] at hrun; exact hrun
      | ok result => rw [hfind] at hrun; cases hrun
  | ok result =>
      obtain ⟨found, files⟩ := result
      obtain ⟨directory, entries, hroot, hdir⟩ := exists_directory_of_testFiles hfs hrun
      obtain ⟨entries', hdir'⟩ := h.exists_directory hdir
      have hroot' := h.resolve_of_resolve hroot
      obtain ⟨howns, rfl⟩ := (testFiles_eq_ok_iff hfs hroot hdir).1 hrun
      have owned := (findModule_eq_ok_iff hfs hroot hdir).2 ⟨rfl, howns⟩
      refine (testFiles_eq_ok_iff hfs' hroot' hdir').2 ⟨?_, ?_⟩
      · exact ((findModule_eq_ok_iff hfs' hroot' hdir').1 (search.trans owned)).2
      · rw [sortedWays_written h hplace hfs hfs' hdir hdir']

/-- **The same suites are loaded** if no file that is found lies at the place. -/
theorem loadSuites_written (hfs : fs.Proper) (hfs' : fs'.Proper) {settings : Settings}
    (hother : ∀ found files, Id.run (testFiles (fs.view base) root settings.excludeDirs) = .ok (found, files) →
      ∀ f ∈ files, ¬ fs.LeadsTo base f.path place) :
    Id.run (loadSuites (fs'.view base) root settings) = Id.run (loadSuites (fs.view base) root settings) := by
  have search := testFiles_written h hplace hfs hfs' base root settings.excludeDirs
  cases hrun : Id.run (testFiles (fs.view base) root settings.excludeDirs) with
  | error e => rw [run_loadSuites, run_loadSuites, search, hrun]
  | ok result =>
      obtain ⟨found, files⟩ := result
      rw [loadSuites_eq_ok hrun, loadSuites_eq_ok (search.trans hrun)]
      exact congrArg Except.ok (List.filterMap_congr fun f hf =>
        suiteAt?_written h (hother found files hrun f hf) settings)

end Written

end SuiteReport.Go.Discovery
