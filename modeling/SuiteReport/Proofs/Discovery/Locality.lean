import SuiteReport.Command.Suites
import SuiteReport.Proofs.Discovery.Files
import SuiteReport.Proofs.Report.Keys
/-!
# Searching a part of a tree

A search from a directory further down finds the same module and, of the files that the search from above finds,
exactly those that lie under the directory, in the same order and with the same paths and packages. Only the
relative paths begin elsewhere. The module file that a directory is searched for upwards is the one that keeps the
search from above out of it, which is why both searches agree.

## Main definitions

* `Discovery.TestFile.liesUnder`, `Discovery.TestFile.seenFrom`: the files under a directory, and how they are
  seen from above.
* `Discovery.suiteAt?`, `Discovery.keysAt`: the suite that a file makes up, and its keys.

## Main results

* `Discovery.filter_sortedWays`: the ways through a directory.
* `Discovery.testFiles_local`: the two searches.
-/

namespace SuiteReport.Go.Discovery

variable {fs : FileSystem} {excluded base directory owner way rest : List String} {path root : String}
  {entries inner : List (String × FileNode)} {found : GoModule} {files : List TestFile}

/-! ### Ways through a directory -/

/-- A directory that is not skipped has no module file. -/
theorem isFile_of_not_skipped (h : ¬ Skipped fs excluded directory) : fs.isFile directory "go.mod" = false :=
  Bool.eq_false_iff.2 fun hfile => h (Or.inr hfile)

/-- What lies on the way to a directory is a directory. -/
theorem exists_node?_of_append (hsub : fs.node? (directory ++ way) = some (.directory inner)) :
    ∃ entries, fs.node? directory = some (.directory entries) := by
  by_cases hway : way = []
  · exact ⟨inner, by rwa [hway, List.append_nil] at hsub⟩
  · exact FileSystem.exists_of_node?_append hsub hway

/-- Relative paths keep their order below another directory. -/
theorem joined_append_lt {other : List String} (hrest : rest ≠ []) (hother : other ≠ [])
    (h : Path.joined rest < Path.joined other) : Path.joined (way ++ rest) < Path.joined (way ++ other) := by
  by_cases hway : way = []
  · simpa [hway] using h
  · rw [Path.joined_append hway hrest, Path.joined_append hway hother, String.lt_iff_toList_lt]
    simp only [String.toList_append]
    exact List.append_left_lt (String.lt_iff_toList_lt.1 h)

/-- **The ways through a directory** are the ways from there, in the same order. -/
theorem filter_sortedWays (hfs : fs.Proper) (hdir : fs.node? directory = some (.directory entries))
    (hsub : fs.node? (directory ++ way) = some (.directory inner))
    (hopen : Open fs excluded directory way) :
    (sortedWays fs excluded directory entries).filter (way.isPrefixOf ·) =
      (sortedWays fs excluded (directory ++ way) inner).map (way ++ ·) := by
  have member (w : List String) : w ∈ (sortedWays fs excluded directory entries).filter (way.isPrefixOf ·) ↔
      w ∈ (sortedWays fs excluded (directory ++ way) inner).map (way ++ ·) := by
    simp only [List.mem_filter, List.mem_map, mem_sortedWays_iff hfs hdir, mem_sortedWays_iff hfs hsub,
      List.isPrefixOf_iff_prefix]
    constructor
    · rintro ⟨hw, rest, rfl⟩
      exact ⟨rest, ((discovered_append_iff hsub).1 hw).2, rfl⟩
    · rintro ⟨rest, hrest, rfl⟩
      exact ⟨(discovered_append_iff hsub).2 ⟨hopen, hrest⟩, List.prefix_append _ _⟩
  -- Both lists are strictly ordered, so they are the same if they have the same members.
  have above : ((sortedWays fs excluded directory entries).filter (way.isPrefixOf ·)).Pairwise
      fun v w => Path.joined v < Path.joined w := (pairwise_sortedWays hfs hdir).filter _
  have below : ((sortedWays fs excluded (directory ++ way) inner).map (way ++ ·)).Pairwise
      fun v w => Path.joined v < Path.joined w := by
    refine List.pairwise_map.2 ((pairwise_sortedWays hfs hsub).imp_of_mem fun hv hw hlt => ?_)
    rw [mem_sortedWays_iff hfs hsub] at hv hw
    exact joined_append_lt hv.ne_nil hw.ne_nil hlt
  refine List.Perm.eq_of_pairwise (fun v w _ _ hvw hwv => absurd hwv (lt_asymm hvw)) above below ?_
  refine (List.perm_ext_iff_of_nodup ?_ ?_).2 member
  · exact (nodup_sortedWays (hfs.of_node? hdir).2).filter _
  · exact (nodup_sortedWays (hfs.of_node? hsub).2).map fun _ _ h => List.append_cancel_left h

/-! ### Files -/

/-- Whether the file lies under the directory. -/
def TestFile.liesUnder (directory : String) (f : TestFile) : Bool := (Path.relativeTo? directory f.path).isSome

/-- The file as it is found from a directory further up, from which the way leads to the one where it is found as it
is. -/
def TestFile.seenFrom (way : List String) (f : TestFile) : TestFile :=
  { f with relativePath := Path.join (Path.joined way) f.relativePath }

/-- A file lies under a directory if the way to the file goes through the directory. -/
theorem liesUnder_ofNames (hfs : fs.Proper) (hdir : fs.node? directory = some (.directory entries)) {w : List String}
    (hw : Discovered fs excluded directory w) (hway : ∀ s ∈ way, Path.IsName s) (found : GoModule) :
    (TestFile.ofNames found directory w).liesUnder (Path.ofNames (directory ++ way)) = way.isPrefixOf w := by
  have hnames := (hfs.of_node? hdir).1
  rw [TestFile.liesUnder, TestFile.ofNames, Path.relativeTo?_ofNames (List.forall_mem_append.2 ⟨hnames, hway⟩)
    (List.forall_mem_append.2 ⟨hnames, hw.isName hfs⟩)]
  simp only [List.prefix_append_right_inj]
  by_cases hon : way <+: w
  · rw [if_pos hon, Option.isSome_some, List.isPrefixOf_iff_prefix.2 hon]
  · rw [if_neg hon, Option.isSome_none, Bool.eq_false_iff.2 (mt List.isPrefixOf_iff_prefix.1 hon)]

/-- From above a file is seen at the end of a longer way. -/
theorem ofNames_append (hfs : fs.Proper) (hway : ∀ s ∈ way, Path.IsName s)
    (hrest : Discovered fs excluded (directory ++ way) rest) (found : GoModule) :
    TestFile.ofNames found directory (way ++ rest) =
      (TestFile.ofNames found (directory ++ way) rest).seenFrom way := by
  have relative : Path.join (Path.joined way) (Path.joined rest) = Path.joined (way ++ rest) :=
    Path.join_joined hway (hrest.isName hfs) hrest.ne_nil
  have dropped : (way ++ rest).dropLast = way ++ rest.dropLast := List.dropLast_append_of_ne_nil hrest.ne_nil
  have last : (way ++ rest).getLast? = rest.getLast? := List.getLast?_append_of_ne_nil _ hrest.ne_nil
  simp only [TestFile.seenFrom, TestFile.ofNames, relative, dropped, last, List.append_assoc]

/-- **The files under a directory** are the files that are found from there, seen from above. -/
theorem filter_liesUnder (hfs : fs.Proper) (hdir : fs.node? directory = some (.directory entries))
    (hsub : fs.node? (directory ++ way) = some (.directory inner))
    (hopen : Open fs excluded directory way) (found : GoModule) :
    ((sortedWays fs excluded directory entries).map (TestFile.ofNames found directory)).filter
        (TestFile.liesUnder (Path.ofNames (directory ++ way))) =
      ((sortedWays fs excluded (directory ++ way) inner).map (TestFile.ofNames found (directory ++ way))).map
        (TestFile.seenFrom way) := by
  have hway : ∀ s ∈ way, Path.IsName s := fun s hs => (hfs.of_node? hsub).1 s (List.mem_append_right _ hs)
  have under : ∀ w ∈ sortedWays fs excluded directory entries,
      (TestFile.liesUnder (Path.ofNames (directory ++ way)) ∘ TestFile.ofNames found directory) w =
        way.isPrefixOf w := fun w hw =>
    liesUnder_ofNames hfs hdir ((mem_sortedWays_iff hfs hdir).1 hw) hway found
  have seen : ∀ rest ∈ sortedWays fs excluded (directory ++ way) inner,
      TestFile.ofNames found directory (way ++ rest) =
        (TestFile.ofNames found (directory ++ way) rest).seenFrom way := fun rest hrest =>
    ofNames_append hfs hway ((mem_sortedWays_iff hfs hsub).1 hrest) found
  calc ((sortedWays fs excluded directory entries).map (TestFile.ofNames found directory)).filter
        (TestFile.liesUnder (Path.ofNames (directory ++ way)))
      = ((sortedWays fs excluded directory entries).filter (way.isPrefixOf ·)).map
          (TestFile.ofNames found directory) := by
        rw [List.filter_map, List.filter_congr under]
    _ = (sortedWays fs excluded (directory ++ way) inner).map fun rest =>
          TestFile.ofNames found directory (way ++ rest) := by
        rw [filter_sortedWays hfs hdir hsub hopen, List.map_map]
        rfl
    _ = _ := by
        rw [List.map_map]
        exact List.map_congr_left seen

/-! ### Modules -/

/-- The path of a file is its directory's, with its name at the end. -/
theorem path_of_discovered (hway : Discovered fs excluded directory way) (found : GoModule) :
    (TestFile.ofNames found directory way).path =
      Path.ofNames (directory ++ way.dropLast ++ [(TestFile.ofNames found directory way).name]) := by
  obtain ⟨stem, hlast⟩ := hway.name
  have split : way.dropLast ++ [(TestFile.ofNames found directory way).name] = way := by
    rw [TestFile.ofNames, hlast]
    exact List.dropLast_append_getLast? _ hlast
  rw [List.append_assoc, split]
  rfl

/-- **Every file that is found belongs to the module**: the search for a module from its directory finds it. -/
theorem findModule_of_discovered (hfs : fs.Proper) (howns : Owns fs owner path directory)
    (hway : Discovered fs excluded directory way) (base : List String) :
    Id.run (findModule (fs.view base) (Path.ofNames (directory ++ way.dropLast))) =
      .ok (directory ++ way.dropLast, ⟨Path.ofNames owner, path⟩) := by
  obtain ⟨content, hfile⟩ := hway.file
  have split : way.dropLast ++ [way.getLast hway.ne_nil] = way := List.dropLast_append_getLast hway.ne_nil
  rw [← split, ← List.append_assoc] at hfile
  obtain ⟨entries, hdir⟩ := FileSystem.exists_of_node?_append hfile (List.cons_ne_nil _ _)
  have place := FileSystem.resolve_ofNames hfs hdir base
  have owned := (owns_append_iff fun outer hne h => isFile_of_not_skipped (hway.reached outer hne h)).2 howns
  exact (findModule_eq_ok_iff hfs place hdir).2 ⟨rfl, owner, path, owned, rfl⟩

/-! ### Suites -/

/-- The suite that a file makes up, if it can be read and parsed and has a test function. -/
def suiteAt? (fs : FileSystem) (base : List String) (settings : Settings) (f : TestFile) : Option TestSuite :=
  match fs.read base f.path with
  | .error _ => none
  | .ok content => suiteOf settings f content

/-- From where a file is seen makes no difference to its suite. -/
theorem suiteAt?_seenFrom (fs : FileSystem) (base : List String) (settings : Settings) (way : List String)
    (f : TestFile) : suiteAt? fs base settings (f.seenFrom way) = suiteAt? fs base settings f := by
  unfold suiteAt?
  rfl

/-- What loading suites does with the files that are found. -/
theorem run_loadSuites (fs : FileSystem) (base : List String) (root : String) (settings : Settings) :
    Id.run (loadSuites (fs.view base) root settings) =
      match Id.run (testFiles (fs.view base) root settings.excludeDirs) with
      | .error e => .error e.toFailure
      | .ok (_, files) =>
        .ok ((Id.run (files.mapM fun f => pure (f := Id) (suiteAt? fs base settings f))).filterMap id) := by
  unfold loadSuites
  rfl

/-- The suites that are loaded are those of the files that are found. -/
theorem loadSuites_eq_ok {settings : Settings}
    (hrun : Id.run (testFiles (fs.view base) root settings.excludeDirs) = .ok (found, files)) :
    Id.run (loadSuites (fs.view base) root settings) = .ok (files.filterMap (suiteAt? fs base settings)) := by
  rw [run_loadSuites, hrun]
  simp [List.filterMap_map]

/-- The paths of the files that are found are absolute, so that they are read from everywhere. -/
theorem suiteAt?_of_mem {found : GoModule} {ways : List (List String)} {f : TestFile}
    (hf : f ∈ ways.map (TestFile.ofNames found directory)) (base : List String) (settings : Settings) :
    suiteAt? fs base settings f = suiteAt? fs [] settings f := by
  obtain ⟨way, -, rfl⟩ := List.mem_map.1 hf
  rw [suiteAt?, suiteAt?, TestFile.ofNames, FileSystem.read_ofNames fs base []]

/-- The keys under which a report looks for the results of a file. -/
def keysAt (fs : FileSystem) (settings : Settings) (f : TestFile) : List String :=
  ((suiteAt? fs [] settings f).map TestSuite.keys).getD []

/-- From where files are seen makes no difference to their keys. -/
theorem flatMap_keysAt_seenFrom (fs : FileSystem) (settings : Settings) (way : List String) (files : List TestFile) :
    (files.map (TestFile.seenFrom way)).flatMap (keysAt fs settings) = files.flatMap (keysAt fs settings) := by
  have own (f : TestFile) : keysAt fs settings (f.seenFrom way) = keysAt fs settings f := by
    rw [keysAt, keysAt, suiteAt?_seenFrom]
  rw [List.flatMap_map]
  exact List.flatMap_congr fun f _ => own f

/-- A report on files looks up the keys of one file after the other. -/
theorem flatMap_keys_filterMap (fs : FileSystem) (settings : Settings) (files : List TestFile) :
    (files.filterMap (suiteAt? fs [] settings)).flatMap TestSuite.keys = files.flatMap (keysAt fs settings) := by
  induction files with
  | nil => rfl
  | cons f later ih =>
      rw [List.filterMap_cons, List.flatMap_cons, ← ih, keysAt]
      cases suiteAt? fs [] settings f <;> simp

/-- From wherever files are found, a report on them looks up the same keys. -/
theorem exists_loadSuites (fs : FileSystem) (settings : Settings) (found : GoModule) (directory : List String)
    (ways : List (List String)) :
    ∃ suites, (∀ base root, Id.run (testFiles (fs.view base) root settings.excludeDirs) =
        .ok (found, ways.map (TestFile.ofNames found directory)) →
          Id.run (loadSuites (fs.view base) root settings) = .ok suites) ∧
      suites.flatMap TestSuite.keys = (ways.map (TestFile.ofNames found directory)).flatMap (keysAt fs settings) := by
  refine ⟨(ways.map (TestFile.ofNames found directory)).filterMap (suiteAt? fs [] settings),
    fun base root hrun => ?_, flatMap_keys_filterMap fs settings _⟩
  rw [loadSuites_eq_ok hrun, List.filterMap_congr fun f hf => suiteAt?_of_mem hf base settings]

/-! ### Both searches -/

/-- **A search from a directory further down** finds the same module and, in the same order, the files that lie under
the directory, each with the same path, package and name. Every file that is found lies in a directory whose module
is the one that was found, and a report on the directory looks up the keys of the files under it, as a report on the
whole tree does. -/
theorem testFiles_local (hfs : fs.Proper) (hroot : fs.resolve base root = .ok directory)
    (hrun : Id.run (testFiles (fs.view base) root excluded) = .ok (found, files))
    (hsub : fs.node? (directory ++ way) = some (.directory inner)) (hopen : Open fs excluded directory way) :
    let under := files.filter (TestFile.liesUnder (Path.ofNames (directory ++ way)))
    (∀ base', fs.resolve base' (Path.ofNames (directory ++ way)) = .ok (directory ++ way)) ∧
    (∃ files', under = files'.map (TestFile.seenFrom way) ∧
      ∀ base' sub, fs.resolve base' sub = .ok (directory ++ way) →
        Id.run (testFiles (fs.view base') sub excluded) = .ok (found, files')) ∧
    (∀ f ∈ files, ∃ place, f.path = Path.ofNames (place ++ [f.name]) ∧
      ∀ base', Id.run (findModule (fs.view base') (Path.ofNames place)) = .ok (place, found)) ∧
    ∀ settings : Settings, settings.excludeDirs = excluded → ∃ suites suites',
      Id.run (loadSuites (fs.view base) root settings) = .ok suites ∧
      suites.flatMap TestSuite.keys = files.flatMap (keysAt fs settings) ∧
      (∀ base' sub, fs.resolve base' sub = .ok (directory ++ way) →
        Id.run (loadSuites (fs.view base') sub settings) = .ok suites') ∧
      suites'.flatMap TestSuite.keys = under.flatMap (keysAt fs settings) := by
  obtain ⟨entries, hdir⟩ := exists_node?_of_append hsub
  obtain ⟨⟨owner, path, howns, rfl⟩, rfl⟩ := (testFiles_eq_ok_iff hfs hroot hdir).1 hrun
  let found : GoModule := ⟨Path.ofNames owner, path⟩
  let files' := (sortedWays fs excluded (directory ++ way) inner).map (TestFile.ofNames found (directory ++ way))
  have owned : Owns fs owner path (directory ++ way) :=
    (owns_append_iff fun outer hne hon => isFile_of_not_skipped (hopen outer hne hon)).2 howns
  have hrun' : ∀ base' sub, fs.resolve base' sub = .ok (directory ++ way) →
      Id.run (testFiles (fs.view base') sub excluded) = .ok (found, files') := fun base' sub hsubdir =>
    (testFiles_eq_ok_iff hfs hsubdir hsub).2 ⟨⟨owner, path, owned, rfl⟩, rfl⟩
  have under := filter_liesUnder hfs hdir hsub hopen found
  refine ⟨FileSystem.resolve_ofNames hfs hsub, ⟨files', under, hrun'⟩, ?_, ?_⟩
  · intro f hf
    obtain ⟨w, hw, rfl⟩ := List.mem_map.1 hf
    rw [mem_sortedWays_iff hfs hdir] at hw
    exact ⟨directory ++ w.dropLast, path_of_discovered hw found, findModule_of_discovered hfs howns hw⟩
  · rintro settings rfl
    obtain ⟨suites, hload, hkeys⟩ := exists_loadSuites fs settings found directory
      (sortedWays fs settings.excludeDirs directory entries)
    obtain ⟨suites', hload', hkeys'⟩ := exists_loadSuites fs settings found (directory ++ way)
      (sortedWays fs settings.excludeDirs (directory ++ way) inner)
    refine ⟨suites, suites', hload base root hrun, hkeys,
      fun base' sub hsubdir => hload' base' sub (hrun' base' sub hsubdir), ?_⟩
    rw [hkeys', under, flatMap_keysAt_seenFrom]

theorem open_project : Open project ["b"] ["m"] ["p"] := by
  intro outer hne hon
  obtain ⟨rest, rfl, hrest⟩ := (List.prefix_cons_iff.1 hon).resolve_left hne
  have dot : ¬ ∃ rest, "p" = "." ++ rest := fun h => absurd ((head?_toList_eq_some_iff rfl).2 h) (by decide)
  have line : ¬ ∃ rest, "p" = "_" ++ rest := fun h => absurd ((head?_toList_eq_some_iff rfl).2 h) (by decide)
  have kept : ¬ IsIgnored ["b"] "p" := by simp [IsIgnored, dot, line]
  rw [List.prefix_nil.1 hrest, skipped_concat_iff]
  simp [kept, isFile_project]

theorem testFiles_local_project :
    project.Proper ∧ project.resolve [] "/m" = .ok ["m"] ∧
    (∃ inner, project.node? (["m"] ++ ["p"]) = some (.directory inner)) ∧ Open project ["b"] ["m"] ["p"] ∧
    ∃ files, Id.run (testFiles (project.view []) "/m" ["b"]) = .ok (⟨"/m", "m"⟩, files) ∧
      ∃ files', files.filter (TestFile.liesUnder (Path.ofNames (["m"] ++ ["p"]))) =
          files'.map (TestFile.seenFrom ["p"]) ∧
        ∀ base' sub, project.resolve base' sub = .ok (["m"] ++ ["p"]) →
          Id.run (testFiles (project.view base') sub ["b"]) = .ok (⟨"/m", "m"⟩, files') := by
  have place : project.resolve [] (Path.ofNames ["m"]) = .ok ["m"] :=
    FileSystem.resolve_ofNames proper_project rfl []
  have written : Path.ofNames ["m"] = "/m" := by decide
  rw [written] at place
  have owned : Owns project ["m"] "m" ["m"] :=
    (owns_append_iff fun outer hne hon => isFile_of_not_skipped (open_project outer hne hon)).1 owns_project
  obtain ⟨files, hrun⟩ : ∃ files, Id.run (testFiles (project.view []) "/m" ["b"]) = .ok (⟨"/m", "m"⟩, files) :=
    ⟨_, (testFiles_eq_ok_iff proper_project place rfl).2 ⟨⟨["m"], "m", owned, by rw [written]⟩, rfl⟩⟩
  exact ⟨proper_project, place, ⟨_, node?_project⟩, open_project, files, hrun,
    (testFiles_local proper_project place hrun node?_project open_project).2.1⟩

end SuiteReport.Go.Discovery
