import Mathlib.Data.List.Nodup
import Mathlib.Data.String.Basic
import SuiteReport.Proofs.Discovery.Module
/-!
# The test files below a directory

The files that are found are the regular files with the names of test files for which no directory on the way to
them is skipped. Each of them is found once, and they come in the order of the bytes of their relative paths.

## Main definitions

* `Discovery.Skipped`: directories that are left out.
* `Discovery.Open`: ways past no such directory.
* `Discovery.Discovered`: the files that are to be found.
* `Discovery.sortedWays`: the ways to them, in order.
* `Discovery.Describes`: what is said about a file.

## Main results

* `Discovery.discovered_append_iff`: the files below a directory further down.
* `Discovery.mem_testFilesAmong_iff`: the walk meets the files that are to be found.
* `Discovery.testFiles_eq_ok_iff`: what the search finds, in terms of the ways.
* `Discovery.exists_testFiles`: what the search finds.
-/

namespace SuiteReport.Go.Discovery

variable {fs : FileSystem} {excluded base directory outer owner way rest : List String} {name path root : String}
  {entries : List (String × FileNode)} {node : FileNode} {found : GoModule} {files : List TestFile}

/-! ### The files that are to be found -/

/-- Whether directories with the name are left out, whatever is in them. -/
def IsIgnored (excluded : List String) (name : String) : Prop :=
  (∃ rest, name = "." ++ rest) ∨ (∃ rest, name = "_" ++ rest) ∨ name = "testdata" ∨ name = "vendor" ∨
    name ∈ excluded

/-- Whether a directory is left out: because of its name, or because it has a module file. -/
def Skipped (fs : FileSystem) (excluded directory : List String) : Prop :=
  (∃ name, directory.getLast? = some name ∧ IsIgnored excluded name) ∨ fs.isFile directory "go.mod" = true

/-- Whether no directory on a way is skipped, from the one after that where the way begins to the one at its end. -/
def Open (fs : FileSystem) (excluded directory way : List String) : Prop :=
  ∀ outer, outer ≠ [] → outer <+: way → ¬ Skipped fs excluded (directory ++ outer)

/-- Whether a way from a directory leads to a file that is to be found. -/
structure Discovered (fs : FileSystem) (excluded directory way : List String) : Prop where
  /-- The way leads to a regular file, and not through a link. -/
  file : ∃ content, fs.node? (directory ++ way) = some (.file content)
  /-- The file has the name of a test file. -/
  name : ∃ stem, way.getLast? = some (stem ++ "_test.go")
  /-- No directory on the way is skipped. -/
  reached : Open fs excluded directory way.dropLast

theorem skipped_concat_iff :
    Skipped fs excluded (outer ++ [name]) ↔
      IsIgnored excluded name ∨ fs.isFile (outer ++ [name]) "go.mod" = true := by
  simp [Skipped]

/-- The way to a file that is to be found has names. -/
theorem Discovered.ne_nil (h : Discovered fs excluded directory way) : way ≠ [] := by
  rintro rfl
  obtain ⟨stem, hlast⟩ := h.name
  simp at hlast

/-- No directory on a way is skipped if none is on its first part and none on the rest. -/
theorem open_append_iff :
    Open fs excluded directory (way ++ rest) ↔
      Open fs excluded directory way ∧ Open fs excluded (directory ++ way) rest := by
  constructor
  · intro h
    refine ⟨fun outer hne hon => h outer hne (hon.trans (List.prefix_append _ _)), fun outer hne hon => ?_⟩
    rw [List.append_assoc]
    exact h _ (by simp [hne]) ((List.prefix_append_right_inj way).2 hon)
  · rintro ⟨hway, hrest⟩ outer hne hon
    rcases List.prefix_or_prefix_of_prefix hon (List.prefix_append way rest) with hup | ⟨more, rfl⟩
    · exact hway outer hne hup
    · by_cases hmore : more = []
      · exact hway _ hne (by simp [hmore])
      · rw [← List.append_assoc]
        exact hrest more hmore ((List.prefix_append_right_inj way).1 hon)

/-- **The files below a directory further down** are those to which the way leads on from there, provided that no
directory on the way there is skipped. -/
theorem discovered_append_iff (hdir : fs.node? (directory ++ way) = some (.directory entries)) :
    Discovered fs excluded directory (way ++ rest) ↔
      Open fs excluded directory way ∧ Discovered fs excluded (directory ++ way) rest := by
  by_cases hrest : rest = []
  · refine iff_of_false (fun h => ?_) (fun h => h.2.ne_nil hrest)
    obtain ⟨content, hfile⟩ := h.file
    simp [hrest, hdir] at hfile
  · have dropped : (way ++ rest).dropLast = way ++ rest.dropLast := List.dropLast_append_of_ne_nil hrest
    have last : (way ++ rest).getLast? = rest.getLast? := List.getLast?_append_of_ne_nil _ hrest
    constructor
    · rintro ⟨hfile, hname, hreached⟩
      rw [dropped, open_append_iff] at hreached
      exact ⟨hreached.1, List.append_assoc directory way rest ▸ hfile, last ▸ hname, hreached.2⟩
    · rintro ⟨hway, hfile, hname, hreached⟩
      refine ⟨List.append_assoc directory way rest ▸ hfile, last.symm ▸ hname, ?_⟩
      rw [dropped, open_append_iff]
      exact ⟨hway, hreached⟩

/-- The files below an entry that is a directory. -/
theorem discovered_cons_iff (hdir : fs.node? (directory ++ [name]) = some (.directory entries)) :
    Discovered fs excluded directory (name :: way) ↔
      ¬ Skipped fs excluded (directory ++ [name]) ∧ Discovered fs excluded (directory ++ [name]) way := by
  have step : Open fs excluded directory [name] ↔ ¬ Skipped fs excluded (directory ++ [name]) := by
    refine ⟨fun h => h _ (by simp) List.prefix_rfl, fun h outer hne hon => ?_⟩
    obtain ⟨rest, rfl, hrest⟩ := (List.prefix_cons_iff.1 hon).resolve_left hne
    rwa [List.prefix_nil.1 hrest]
  rw [← step]
  exact discovered_append_iff hdir

/-- The only file below an entry that is no directory is the entry itself. -/
theorem discovered_cons_iff_of_ne (hdir : ∀ entries, fs.node? (directory ++ [name]) ≠ some (.directory entries)) :
    Discovered fs excluded directory (name :: way) ↔
      way = [] ∧ (∃ content, fs.node? (directory ++ [name]) = some (.file content)) ∧
        ∃ stem, name = stem ++ "_test.go" := by
  constructor
  · intro h
    obtain ⟨content, hfile⟩ := h.file
    obtain rfl : way = [] := by
      by_contra hne
      rw [List.append_cons] at hfile
      obtain ⟨entries, hentries⟩ := FileSystem.exists_of_node?_append hfile hne
      exact hdir entries hentries
    exact ⟨rfl, h.file, by simpa using h.name⟩
  · rintro ⟨rfl, hfile, hname⟩
    refine ⟨hfile, by simpa using hname, fun outer hne hon => ?_⟩
    exact absurd (List.prefix_nil.1 hon) hne

/-! ### The walk -/

/-- A name is that of a test file if it has the ending of those. -/
theorem isTestFile_iff : isTestFile name = true ↔ ∃ stem, name = stem ++ "_test.go" := by
  rw [isTestFile, List.isSuffixOf_iff_suffix]
  constructor
  · rintro ⟨stem, hstem⟩
    refine ⟨String.ofList stem, String.toList_injective ?_⟩
    rw [String.toList_append, String.toList_ofList]
    exact hstem.symm
  · rintro ⟨stem, rfl⟩
    rw [String.toList_append]
    exact List.suffix_append _ _

/-- A name begins with a character if something follows it. -/
theorem head?_toList_eq_some_iff {c : Char} {first : String} (hfirst : first.toList = [c]) :
    name.toList.head? = some c ↔ ∃ rest, name = first ++ rest := by
  constructor
  · intro h
    obtain ⟨rest, hrest⟩ := List.head?_eq_some_iff.1 h
    refine ⟨String.ofList rest, String.toList_injective ?_⟩
    rw [String.toList_append, String.toList_ofList, hfirst, hrest, List.singleton_append]
  · rintro ⟨rest, rfl⟩
    rw [String.toList_append, hfirst]
    rfl

/-- What lies in a directory, entry by entry. -/
theorem trees_eq_map (fs : FileSystem) (directory : List String) (entries : List (String × FileNode)) :
    fs.trees directory entries = entries.map fun e => (e.1, fs.tree directory e.1 e.2) := by
  induction entries with
  | nil => rfl
  | cons e later ih => rw [FileSystem.trees, ih, List.map_cons]

/-- The walk through several entries, entry by entry. -/
theorem testFilesAmong_eq_flatMap (excluded : List String) (trees : List (String × FileTree)) :
    testFilesAmong excluded trees = trees.flatMap fun t => testFilesIn excluded t.1 t.2 := by
  induction trees with
  | nil => rfl
  | cons t later ih => rw [testFilesAmong, ih, List.flatMap_cons]

/-- A module file is an entry with the name of module files that leads to a regular file. -/
theorem isModuleFile_iff {tree : FileTree} :
    isModuleFile (name, tree) = true ↔ name = "go.mod" ∧ (tree = .file ∨ tree = .other true) := by
  rcases tree with _ | _ | (_ | _) <;> simp [isModuleFile, GoModule.fileName]

/-- A directory has a module file in it if it has one when it is looked for. -/
theorem any_isModuleFile_trees (hfs : fs.Proper) (hdir : fs.node? directory = some (.directory entries)) :
    (fs.trees directory entries).any isModuleFile = true ↔ fs.isFile directory "go.mod" = true := by
  cases (hfs.of_node? hdir).2 with
  | directory distinct names nodes =>
      rw [FileSystem.isFile_iff hdir isName_fileName, trees_eq_map, List.any_map, List.any_eq_true]
      constructor
      · rintro ⟨⟨name, node⟩, hmem, hmodule⟩
        obtain ⟨rfl, hleads⟩ := isModuleFile_iff.1 hmodule
        exact ⟨node, (FileNode.lookup_eq_some_iff distinct).2 hmem, hleads⟩
      · rintro ⟨node, hlookup, hleads⟩
        exact ⟨_, (FileNode.lookup_eq_some_iff distinct).1 hlookup, isModuleFile_iff.2 ⟨rfl, hleads⟩⟩

/-- The walk leaves out the directories that are skipped. -/
theorem isSkipped_iff (hfs : fs.Proper) (hdir : fs.node? (outer ++ [name]) = some (.directory entries)) :
    isSkipped excluded name (fs.trees (outer ++ [name]) entries) = true ↔ Skipped fs excluded (outer ++ [name]) := by
  have dot : name.toList.head? = some '.' ↔ ∃ rest, name = "." ++ rest := head?_toList_eq_some_iff rfl
  have line : name.toList.head? = some '_' ↔ ∃ rest, name = "_" ++ rest := head?_toList_eq_some_iff rfl
  rw [skipped_concat_iff, ← any_isModuleFile_trees hfs hdir, IsIgnored, ← dot, ← line]
  simp [isSkipped, ignoredDirectories, or_assoc]

/-- Every way below an entry begins with the name of the entry. -/
theorem exists_of_mem_testFilesIn {tree : FileTree} (h : way ∈ testFilesIn excluded name tree) :
    ∃ inner, way = name :: inner := by
  cases tree with
  | file =>
      rw [testFilesIn] at h
      split at h <;> simp_all
  | directory entries =>
      rw [testFilesIn] at h
      split at h
      · simp at h
      · obtain ⟨inner, -, rfl⟩ := List.mem_map.1 h
        exact ⟨inner, rfl⟩
  | other leadsToFile => simp [testFilesIn] at h

/-- A way in a directory goes through the entry that has its first name. -/
theorem cons_mem_testFilesAmong_iff (hproper : (FileNode.directory entries).Proper) :
    name :: way ∈ testFilesAmong excluded (fs.trees directory entries) ↔
      ∃ node, entries.lookup name = some node ∧
        name :: way ∈ testFilesIn excluded name (fs.tree directory name node) := by
  cases hproper with
  | directory distinct names nodes =>
      rw [testFilesAmong_eq_flatMap, trees_eq_map, List.flatMap_map, List.mem_flatMap]
      constructor
      · rintro ⟨⟨first, node⟩, hmem, hway⟩
        obtain ⟨inner, heq⟩ := exists_of_mem_testFilesIn hway
        obtain rfl := (List.cons.inj heq).1
        exact ⟨node, (FileNode.lookup_eq_some_iff distinct).2 hmem, hway⟩
      · rintro ⟨node, hlookup, hway⟩
        exact ⟨_, (FileNode.lookup_eq_some_iff distinct).1 hlookup, hway⟩

/-- **The walk through a directory** meets the files that are to be found. The induction is on the way. -/
theorem mem_testFilesAmong_iff (hfs : fs.Proper) (hdir : fs.node? directory = some (.directory entries)) :
    way ∈ testFilesAmong excluded (fs.trees directory entries) ↔ Discovered fs excluded directory way := by
  induction way generalizing directory entries with
  | nil =>
      refine iff_of_false (fun h => ?_) (fun h => h.ne_nil rfl)
      rw [testFilesAmong_eq_flatMap, List.mem_flatMap] at h
      obtain ⟨t, -, h⟩ := h
      obtain ⟨inner, heq⟩ := exists_of_mem_testFilesIn h
      simp at heq
  | cons name way ih =>
      rw [cons_mem_testFilesAmong_iff (hfs.of_node? hdir).2, ← FileSystem.node?_concat hdir name]
      cases hnode : fs.node? (directory ++ [name]) with
      | none => rw [discovered_cons_iff_of_ne (by simp [hnode])]; simp [hnode]
      | some node =>
          cases node with
          | directory inner =>
              rw [discovered_cons_iff hnode, ← ih hnode, ← isSkipped_iff hfs hnode]
              simp [FileSystem.tree, testFilesIn]
          | file content =>
              rw [discovered_cons_iff_of_ne (by simp [hnode]), ← isTestFile_iff]
              simp [hnode, FileSystem.tree, testFilesIn, and_comm]
          | link target =>
              rw [discovered_cons_iff_of_ne (by simp [hnode])]
              simp [hnode, FileSystem.tree, testFilesIn]

/-- The walk through some entries meets no file twice, if the walk through none of them does. -/
theorem nodup_testFilesAmong_of_forall (distinct : (entries.map Prod.fst).Nodup)
    (h : ∀ e ∈ entries, (testFilesIn excluded e.1 (fs.tree directory e.1 e.2)).Nodup) :
    (testFilesAmong excluded (fs.trees directory entries)).Nodup := by
  rw [testFilesAmong_eq_flatMap, trees_eq_map, List.flatMap_map, List.nodup_flatMap]
  refine ⟨h, (List.pairwise_map.1 distinct).imp fun hne => ?_⟩
  -- Ways through entries with different names begin differently.
  rintro way hway hway'
  obtain ⟨inner, rfl⟩ := exists_of_mem_testFilesIn hway
  obtain ⟨inner', heq⟩ := exists_of_mem_testFilesIn hway'
  exact hne (List.cons.inj heq).1

/-- The walk below an entry meets no file twice. -/
theorem nodup_testFilesIn (h : node.Proper) (directory : List String) (name : String) :
    (testFilesIn excluded name (fs.tree directory name node)).Nodup := by
  induction h generalizing directory name with
  | file content =>
      rw [FileSystem.tree, testFilesIn]
      split <;> simp
  | link target => simp [FileSystem.tree, testFilesIn]
  | directory distinct names nodes ih =>
      rw [FileSystem.tree, testFilesIn]
      split
      · exact List.nodup_nil
      · have inner := nodup_testFilesAmong_of_forall distinct fun e he => ih e he (directory ++ [name]) e.1
        exact inner.map fun _ _ heq => (List.cons.inj heq).2

/-- **The walk meets no file twice.** -/
theorem nodup_testFilesAmong (h : (FileNode.directory entries).Proper) :
    (testFilesAmong excluded (fs.trees directory entries)).Nodup := by
  cases h with
  | directory distinct names nodes =>
      exact nodup_testFilesAmong_of_forall distinct fun e he => nodup_testFilesIn (nodes e he) directory e.1

/-! ### The order -/

/-- The ways to the files that are found, in the order of the relative paths. -/
def sortedWays (fs : FileSystem) (excluded directory : List String) (entries : List (String × FileNode)) :
    List (List String) :=
  (testFilesAmong excluded (fs.trees directory entries)).mergeSort fun way other =>
    Path.joined way ≤ Path.joined other

/-- The ways are those to the files that are to be found. -/
theorem mem_sortedWays_iff (hfs : fs.Proper) (hdir : fs.node? directory = some (.directory entries)) :
    way ∈ sortedWays fs excluded directory entries ↔ Discovered fs excluded directory way := by
  rw [sortedWays, List.mem_mergeSort, mem_testFilesAmong_iff hfs hdir]

/-- No two ways are the same. -/
theorem nodup_sortedWays (h : (FileNode.directory entries).Proper) :
    (sortedWays fs excluded directory entries).Nodup :=
  (List.mergeSort_perm _ _).nodup_iff.2 (nodup_testFilesAmong h)

/-- A way to a file that is to be found has names that entries can have. -/
theorem Discovered.isName (h : Discovered fs excluded directory way) (hfs : fs.Proper) :
    ∀ s ∈ way, Path.IsName s := by
  obtain ⟨content, hfile⟩ := h.file
  intro s hs
  exact (hfs.of_node? hfile).1 s (List.mem_append_right _ hs)

/-- The relative paths strictly increase. -/
theorem pairwise_sortedWays (hfs : fs.Proper) (hdir : fs.node? directory = some (.directory entries)) :
    (sortedWays fs excluded directory entries).Pairwise fun way other => Path.joined way < Path.joined other := by
  have ascending : (sortedWays fs excluded directory entries).Pairwise fun way other =>
      decide (Path.joined way ≤ Path.joined other) = true :=
    List.pairwise_mergeSort (fun a b c hab hbc => by simp at *; exact hab.trans hbc)
      (fun a b => by simpa using le_total (Path.joined a) (Path.joined b)) _
  have distinct : (sortedWays fs excluded directory entries).Pairwise (· ≠ ·) := nodup_sortedWays (hfs.of_node? hdir).2
  refine (ascending.and distinct).imp_of_mem fun hway hother ⟨hle, hne⟩ => ?_
  rw [mem_sortedWays_iff hfs hdir] at hway hother
  refine lt_of_le_of_ne (of_decide_eq_true hle) fun heq => hne ?_
  exact Path.joined_injective (hway.isName hfs) (hother.isName hfs) hway.ne_nil hother.ne_nil heq

/-! ### The search -/

/-- What the search for files does below the directory that a path leads to. -/
theorem run_testFiles (fs : FileSystem) (base : List String) (root : String) (excluded : List String) :
    Id.run (testFiles (fs.view base) root excluded) =
      match Id.run (findModule (fs.view base) root) with
      | .error e => .error e
      | .ok (directory, found) =>
        .ok (found, ((testFilesAmong excluded (fs.entries base (Path.ofNames directory))).map
          (TestFile.ofNames found directory)).mergeSort fun f g => f.relativePath ≤ g.relativePath) := by
  unfold testFiles
  rfl

/-- **What the search finds**, in terms of the ways. -/
theorem testFiles_eq_ok_iff (hfs : fs.Proper) (hroot : fs.resolve base root = .ok directory)
    (hdir : fs.node? directory = some (.directory entries)) :
    Id.run (testFiles (fs.view base) root excluded) = .ok (found, files) ↔
      (∃ owner path, Owns fs owner path directory ∧ found = ⟨Path.ofNames owner, path⟩) ∧
        files = (sortedWays fs excluded directory entries).map (TestFile.ofNames found directory) := by
  have sorted (found : GoModule) :
      ((testFilesAmong excluded (fs.trees directory entries)).map (TestFile.ofNames found directory)).mergeSort
        (fun f g => f.relativePath ≤ g.relativePath) =
      (sortedWays fs excluded directory entries).map (TestFile.ofNames found directory) :=
    (List.map_mergeSort (r := fun way other => Path.joined way ≤ Path.joined other) fun _ _ _ _ => rfl).symm
  rw [run_testFiles]
  cases hfind : Id.run (findModule (fs.view base) root) with
  | error e =>
      refine iff_of_false (by simp) fun ⟨hfound, _⟩ => ?_
      simp [(findModule_eq_ok_iff hfs hroot hdir).2 ⟨rfl, hfound⟩] at hfind
  | ok result =>
      obtain ⟨place, nearest⟩ := result
      obtain ⟨rfl, hnearest⟩ := (findModule_eq_ok_iff hfs hroot hdir).1 hfind
      simp only [FileSystem.entries_ofNames hfs hdir, sorted, Except.ok.injEq, Prod.mk.injEq]
      constructor
      · rintro ⟨rfl, rfl⟩
        exact ⟨hnearest, rfl⟩
      · rintro ⟨hfound, rfl⟩
        -- The search for the module has one result.
        rw [(findModule_eq_ok_iff hfs hroot hdir).2 ⟨rfl, hfound⟩] at hfind
        obtain rfl : found = nearest := by simpa using hfind
        exact ⟨rfl, rfl⟩

/-- What is said about the file at the end of a way from a directory. -/
structure Describes (found : GoModule) (directory way : List String) (f : TestFile) : Prop where
  /-- The path is that of the file. -/
  path : f.path = Path.ofNames (directory ++ way)
  /-- The relative path is the way, with slashes between the names. -/
  relativePath : f.relativePath = "/".intercalate way
  /-- The relative path leads from the directory to the path. -/
  joined : Path.join (Path.ofNames directory) f.relativePath = f.path
  /-- The package is that of the directory which the file lies in. -/
  package : f.package = found.packageOf (Path.ofNames (directory ++ way.dropLast))
  /-- The base name is the last name of the way. -/
  name : way.getLast? = some f.name

/-- What the program says about a file is right. -/
theorem describes_ofNames (hfs : fs.Proper) (hdir : fs.node? directory = some (.directory entries))
    (hway : Discovered fs excluded directory way) (found : GoModule) :
    Describes found directory way (TestFile.ofNames found directory way) where
  path := rfl
  relativePath := rfl
  joined := Path.join_ofNames_joined (hfs.of_node? hdir).1 (hway.isName hfs) hway.ne_nil
  package := by rw [TestFile.ofNames]
  name := by
    obtain ⟨stem, hlast⟩ := hway.name
    rw [TestFile.ofNames, hlast]
    rfl

/-- **What the search finds.** From a directory that belongs to a module it finds the module and, in the order of the
bytes of their relative paths, every file that is to be found once, and nothing else. -/
theorem exists_testFiles (hfs : fs.Proper) (hroot : fs.resolve base root = .ok directory)
    (hdir : fs.node? directory = some (.directory entries)) (howns : Owns fs owner path directory)
    (excluded : List String) :
    ∃ files ways,
      Id.run (testFiles (fs.view base) root excluded) = .ok (⟨Path.ofNames owner, path⟩, files) ∧
      ways.Nodup ∧ (∀ way, way ∈ ways ↔ Discovered fs excluded directory way) ∧
      List.Forall₂ (Describes ⟨Path.ofNames owner, path⟩ directory) ways files ∧
      files.Pairwise fun f g => Bytes.ofString f.relativePath < Bytes.ofString g.relativePath := by
  let found : GoModule := ⟨Path.ofNames owner, path⟩
  let ways := sortedWays fs excluded directory entries
  have member (way : List String) : way ∈ ways ↔ Discovered fs excluded directory way := mem_sortedWays_iff hfs hdir
  refine ⟨ways.map (TestFile.ofNames found directory), ways, ?_, ?_, member, ?_, ?_⟩
  · exact (testFiles_eq_ok_iff hfs hroot hdir).2 ⟨⟨owner, path, howns, rfl⟩, rfl⟩
  · exact nodup_sortedWays (hfs.of_node? hdir).2
  · refine List.forall₂_map_right_iff.2 (List.forall₂_same.2 fun way hway => ?_)
    exact describes_ofNames hfs hdir ((member way).1 hway) found
  · refine List.pairwise_map.2 ((pairwise_sortedWays hfs hdir).imp fun hlt => ?_)
    exact Bytes.encode_lt (String.lt_iff_toList_lt.1 hlt)

/-! ### A project -/

/-- A module with a package below it, whose directory has a directory, a link and a skipped directory in it. -/
def project : FileSystem where
  root := .directory [
    ("m", .directory [
      ("go.mod", .file (Bytes.ofString "module m\n")),
      ("p", .directory [
        ("b", .directory [("t_test.go", .file [])]),
        ("b-a_test.go", .file []),
        ("l_test.go", .link "b-a_test.go"),
        ("vendor", .directory [("v_test.go", .file [])])])])]

theorem node?_project :
    project.node? ["m", "p"] = some (.directory [
      ("b", .directory [("t_test.go", .file [])]),
      ("b-a_test.go", .file []),
      ("l_test.go", .link "b-a_test.go"),
      ("vendor", .directory [("v_test.go", .file [])])]) := rfl

theorem proper_project : project.Proper := by
  simp only [FileSystem.Proper, project, FileNode.proper_directory_iff, FileNode.Proper.file, FileNode.Proper.link,
    List.forall_mem_cons, List.not_mem_nil, and_true, false_imp_iff, implies_true]
  decide

theorem isFile_project : project.isFile ["m", "p"] "go.mod" = false := by
  rw [Bool.eq_false_iff, ne_eq, FileSystem.isFile_iff node?_project isName_fileName]
  simp [List.lookup_cons]

theorem owns_project : Owns project ["m"] "m" ["m", "p"] := by
  have declaration : project.read ["m"] "go.mod" = .ok (Bytes.ofString "module m\n") :=
    FileSystem.read_of_lookup rfl isName_fileName rfl
  have declares : Declares project ["m"] "m" := ⟨_, declaration, by decide⟩
  have upwards : Owns project ["m"] "m" (["m"] ++ ["p"]) ↔ Owns project ["m"] "m" ["m"] :=
    owns_concat_iff isFile_project
  exact upwards.2 ((owns_iff_of_isFile declares.isFile).2 ⟨rfl, declares⟩)

theorem exists_testFiles_project :
    project.Proper ∧ project.resolve [] "/m/p" = .ok ["m", "p"] ∧
    (∃ entries, project.node? ["m", "p"] = some (.directory entries)) ∧ Owns project ["m"] "m" ["m", "p"] ∧
    ∃ files ways,
      Id.run (testFiles (project.view []) "/m/p" ["b"]) = .ok (⟨"/m", "m"⟩, files) ∧
      ways.Nodup ∧ (∀ way, way ∈ ways ↔ Discovered project ["b"] ["m", "p"] way) ∧
      List.Forall₂ (Describes ⟨"/m", "m"⟩ ["m", "p"]) ways files ∧
      files.Pairwise fun f g => Bytes.ofString f.relativePath < Bytes.ofString g.relativePath := by
  have place : project.resolve [] (Path.ofNames ["m", "p"]) = .ok ["m", "p"] :=
    FileSystem.resolve_ofNames proper_project node?_project []
  have written : Path.ofNames ["m", "p"] = "/m/p" := by decide
  rw [written] at place
  exact ⟨proper_project, place, ⟨_, node?_project⟩, owns_project,
    exists_testFiles proper_project place node?_project owns_project ["b"]⟩

end SuiteReport.Go.Discovery
