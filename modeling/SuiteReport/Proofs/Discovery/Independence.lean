import SuiteReport.Proofs.Discovery.Stability
import SuiteReport.Proofs.Subtest.MachineName
/-!
# Test files apart from one another

Each test file makes up its suite by itself, from its content, its package and its name, and one that cannot be read or
parsed, or that has no test function, makes up none. So a change to one file leaves the suites of all others as they
are, provided that the search finds the same files. The one thing that the search reads are module files, and these
may be links: a file that is looked at under the name of a module file decides for more than itself.

## Main definitions

* `Source.HasTest`: files with a test function.
* `Discovery.PassedOver`: why a file makes up no suite.
* `Discovery.suiteFrom?`: the suite of a file, from what is read of it.

## Main results

* `Discovery.suiteFrom?_eq_none_iff`: which files make up no suite.
* `Discovery.run_loadSuites_view`: the suites that are loaded, file by file.
* `Discovery.loadSuites_independent`: one file does not disturb another.
* `Discovery.exists_suite_lost`: one file disturbs another through a link.
-/

namespace SuiteReport.Go

/-! ### The suite of a single file -/

/-- Whether a file declares a function whose name begins as those of test functions do. -/
def Source.HasTest (f : Source) (testPrefix : String) : Prop :=
  ∃ n ∈ f.tree.children, n.kind = .functionDeclaration ∧
    ∃ name, n.child? .name = some name ∧ ∃ rest, name.text f.content = testPrefix ++ rest

/-- A text begins with another one if something follows that. -/
theorem prefix_toList_iff {first text : String} : first.toList <+: text.toList ↔ ∃ rest, text = first ++ rest := by
  constructor
  · rintro ⟨rest, hrest⟩
    refine ⟨String.ofList rest, String.toList_injective ?_⟩
    rw [String.toList_append, String.toList_ofList, hrest]
  · rintro ⟨rest, rfl⟩
    rw [String.toList_append]
    exact List.prefix_append _ _

/-- A function is a test function if its name begins so. -/
theorem Scope.isSome_testFunction?_iff (s : Scope) (testPrefix : String) (n : Node) :
    (s.testFunction? testPrefix n).isSome ↔
      ∃ name, n.child? .name = some name ∧ ∃ rest, name.text s.content = testPrefix ++ rest := by
  rw [Scope.testFunction?, Scope.functionName?]
  cases n.child? .name with
  | none => simp
  | some name =>
      by_cases htest : testPrefix.toList <+: (name.text s.content).toList
      · exact iff_of_true (by simp [htest]) ⟨name, rfl, prefix_toList_iff.1 htest⟩
      · refine iff_of_false (by simp [htest]) ?_
        rintro ⟨name', hname, hrest⟩
        obtain rfl := Option.some.inj hname
        exact htest (prefix_toList_iff.2 hrest)

/-- A suite has units. -/
theorem Source.units_ne_nil {f : Source} {settings : Settings} {package name : String} {suite : TestSuite}
    (h : f.suite? settings package name = some suite) : suite.units ≠ [] := by
  rw [Source.suite?] at h
  split at h
  · cases h
  · next hne =>
      obtain rfl := Option.some.inj h
      exact hne

/-- A file makes up a suite exactly if it has a test function. -/
theorem Source.isSome_suite?_iff (f : Source) (settings : Settings) (package name : String) :
    (f.suite? settings package name).isSome ↔ f.HasTest settings.testPrefix := by
  constructor
  · intro h
    obtain ⟨suite, hs⟩ := Option.isSome_iff_exists.1 h
    have hne : suite.units ≠ [] := Source.units_ne_nil hs
    obtain ⟨u, hu⟩ := List.exists_mem_of_ne_nil _ hne
    rw [Source.units_of_suite? hs] at hu
    obtain ⟨n, hn, hfun⟩ := List.mem_filterMap.1 hu
    obtain ⟨hmem, hkind⟩ := List.mem_filter.1 hn
    exact ⟨n, hmem, by simpa using hkind, (Scope.isSome_testFunction?_iff _ _ n).1 (Option.isSome_of_eq_some hfun)⟩
  · rintro ⟨n, hmem, hkind, hname⟩
    obtain ⟨u, hu⟩ := Option.isSome_iff_exists.1
      ((Scope.isSome_testFunction?_iff (f.scope settings) settings.testPrefix n).2 hname)
    obtain ⟨suite, hs, -⟩ := Source.exists_suite? (List.mem_filter.2 ⟨hmem, by simp [hkind]⟩) hu package name
    rw [hs, Option.isSome_some]

namespace Discovery

/-- The suite that a file makes up, by what comes of reading it. -/
def suiteFrom? (settings : Settings) (f : TestFile) (answer : Except FileError Bytes) : Option TestSuite :=
  answer.toOption.bind (suiteOf settings f)

/-- Why a file makes up no suite. -/
inductive PassedOver (settings : Settings) : Except FileError Bytes → Prop where
  /-- The file cannot be read. -/
  | unreadable (e : FileError) : PassedOver settings (.error e)
  /-- The file does not parse. -/
  | unparsed {content : Bytes} (h : Source.parse? content = none) : PassedOver settings (.ok content)
  /-- The file has no test function. -/
  | untested {content : Bytes} {source : Source} (hparse : Source.parse? content = some source)
      (h : ¬ source.HasTest settings.testPrefix) : PassedOver settings (.ok content)

variable {fs : FileSystem} {base place outer : List String} {root name : String} {old content : Bytes}
  {settings : Settings} {entries : List (String × FileNode)} {f : TestFile} {suite : TestSuite} {found : GoModule}
  {files : List TestFile}

/-- **Which files make up no suite**: those that cannot be read, do not parse or have no test function. -/
theorem suiteFrom?_eq_none_iff {answer : Except FileError Bytes} :
    suiteFrom? settings f answer = none ↔ PassedOver settings answer := by
  cases answer with
  | error e => exact iff_of_true rfl (.unreadable e)
  | ok content =>
      have read : suiteFrom? settings f (.ok content) = suiteOf settings f content := rfl
      rw [read, suiteOf]
      cases hparse : Source.parse? content with
      | none => exact iff_of_true rfl (.unparsed hparse)
      | some source =>
          have made : (some source).bind (fun f' => f'.suite? settings f.package f.name) = none ↔
              ¬ source.HasTest settings.testPrefix := by
            rw [Option.bind_some, ← Source.isSome_suite?_iff source settings f.package f.name,
              Option.not_isSome_iff_eq_none]
          refine made.trans ⟨.untested hparse, fun h => ?_⟩
          cases h with
          | unparsed hnone => rw [hparse] at hnone; cases hnone
          | untested hparse' hnone =>
              obtain rfl := Option.some.inj (hparse.symm.trans hparse')
              exact hnone

/-- A suite has the package and the name of its file, and units. -/
theorem of_suiteFrom? {answer : Except FileError Bytes} (h : suiteFrom? settings f answer = some suite) :
    suite.package = f.package ∧ suite.name = f.name ∧ suite.units ≠ [] := by
  obtain ⟨content, -, hsuite⟩ := Option.bind_eq_some_iff.1 h
  obtain ⟨source, -, hmade⟩ := Option.bind_eq_some_iff.1 hsuite
  have hne := Source.units_ne_nil hmade
  rw [Source.suite?] at hmade
  split at hmade
  · cases hmade
  · obtain rfl := Option.some.inj hmade
    exact ⟨rfl, rfl, hne⟩

/-- The suite of a file in a file system. -/
theorem suiteAt?_eq_suiteFrom? (fs : FileSystem) (base : List String) (settings : Settings) (f : TestFile) :
    suiteAt? fs base settings f = suiteFrom? settings f (fs.read base f.path) :=
  suiteAt?_eq fs base settings f

/-- Whether a content makes up a suite does not depend on the package and the name of the file. -/
theorem exists_suiteOf {package : String}
    (h : ((Source.parse? content).bind fun source => source.suite? settings package name).isSome) (f : TestFile) :
    ∃ suite, suiteOf settings f content = some suite := by
  obtain ⟨made, hmade⟩ := Option.isSome_iff_exists.1 h
  obtain ⟨source, hparse, hmade⟩ := Option.bind_eq_some_iff.1 hmade
  have test := (Source.isSome_suite?_iff source settings package name).1 (Option.isSome_of_eq_some hmade)
  obtain ⟨suite, hsuite⟩ := Option.isSome_iff_exists.1
    ((Source.isSome_suite?_iff source settings f.package f.name).2 test)
  exact ⟨suite, Option.bind_eq_some_iff.2 ⟨source, hparse, hsuite⟩⟩

/-! ### File by file -/

/-- The search for files puts them in order, however it is answered. -/
theorem pairwise_testFiles {view : FileView Id} {excluded : List String}
    (hrun : Id.run (testFiles view root excluded) = .ok (found, files)) :
    files.Pairwise fun f g => f.relativePath ≤ g.relativePath := by
  have sorted (unsorted : List TestFile) : (unsorted.mergeSort fun f g => f.relativePath ≤ g.relativePath).Pairwise
      fun f g => f.relativePath ≤ g.relativePath := by
    refine (List.pairwise_mergeSort (fun f g k hfg hgk => ?_) (fun f g => ?_) unsorted).imp of_decide_eq_true
    · simp only [decide_eq_true_eq] at *
      exact hfg.trans hgk
    · simpa using le_total f.relativePath g.relativePath
  unfold testFiles at hrun
  cases hfind : Id.run (findModule view root) with
  | error e =>
      simp [hfind] at hrun
  | ok result =>
      obtain ⟨directory, nearest⟩ := result
      simp only [Id.run_bind, hfind, Id.run_pure, Except.ok.injEq, Prod.mk.injEq] at hrun
      obtain ⟨-, rfl⟩ := hrun
      exact sorted _

/-- **The suites that are loaded**, file by file. -/
theorem run_loadSuites_view (view : FileView Id) (root : String) (settings : Settings) :
    Id.run (loadSuites view root settings) =
      match Id.run (testFiles view root settings.excludeDirs) with
      | .error e => .error e.toFailure
      | .ok (_, files) => .ok (files.filterMap fun f => suiteFrom? settings f (Id.run (view.read f.path))) := by
  unfold loadSuites
  cases hrun : Id.run (testFiles view root settings.excludeDirs) with
  | error e => simp [hrun]
  | ok result =>
      obtain ⟨found, files⟩ := result
      simp only [Id.run_bind, hrun, List.idRun_mapM, Id.run_pure, List.filterMap_map, Except.ok.injEq]
      refine List.filterMap_congr fun f _ => ?_
      simp only [Function.comp_apply, suiteFrom?, id]
      cases Id.run (view.read f.path) <;> rfl

/-! ### One file and the others -/

/-- A file that is found lies at one place only. -/
theorem eq_of_leadsTo_path (hfs : fs.Proper) {excluded : List String} {g : TestFile}
    (hrun : Id.run (testFiles (fs.view base) root excluded) = .ok (found, files)) (hf : f ∈ files) (hg : g ∈ files)
    (hplace : fs.LeadsTo base f.path place) (hplace' : fs.LeadsTo base g.path place) :
    f.path = Path.ofNames place ∧ f = g := by
  obtain ⟨directory, hways⟩ := exists_discovered_of_mem hfs hrun
  obtain ⟨way, hway, rfl⟩ := hways f hf
  obtain ⟨way', hway', rfl⟩ := hways g hg
  obtain rfl := (hway.leadsTo_path_iff hfs found base place).1 hplace
  obtain rfl := List.append_cancel_left ((hway'.leadsTo_path_iff hfs found base _).1 hplace')
  exact ⟨rfl, rfl⟩

/-- Of several files one is taken after those above it and before those below. -/
theorem filterMap_append_cons {α β : Type} (g : α → Option β) (above : List α) (a : α) (below : List α) :
    (above ++ a :: below).filterMap g = above.filterMap g ++ (g a).toList ++ below.filterMap g := by
  cases h : g a <;> simp [h]

/-- The suite of a file that is found is made from what lies at its place. -/
theorem suiteAt?_eq_suiteOf (hfs : fs.Proper) (hold : fs.node? place = some (.file old)) {excluded : List String}
    {f : TestFile} (hrun : Id.run (testFiles (fs.view base) root excluded) = .ok (found, files)) (hf : f ∈ files)
    (hplace : fs.LeadsTo base f.path place) (settings : Settings) :
    suiteAt? fs base settings f = suiteOf settings f old := by
  have path := (eq_of_leadsTo_path hfs hrun hf hf hplace hplace).1
  obtain ⟨directory, hways⟩ := exists_discovered_of_mem hfs hrun
  obtain ⟨way, hway, rfl⟩ := hways f hf
  obtain rfl := (hway.leadsTo_path_iff hfs found base place).1 hplace
  rw [suiteAt?, path, FileSystem.read_ofNames_of_file hfs hold (by simp [hway.ne_nil])]

/-- When one of the files is written, the others, which lie at other places, have the suites that they had. -/
theorem suiteAt?_eq_of_mem_others {fs' : FileSystem} (h : fs.Written place content fs') (hfs : fs.Proper) {excluded : List String}
    {f : TestFile} {before after : List TestFile}
    (hrun : Id.run (testFiles (fs.view base) root excluded) = .ok (found, before ++ f :: after))
    (hplace : fs.LeadsTo base f.path place) (settings : Settings) :
    ∀ g ∈ before ++ after, suiteAt? fs' base settings g = suiteAt? fs base settings g := by
  intro g hg
  have hf : f ∈ before ++ f :: after := List.mem_append_right _ List.mem_cons_self
  have hne : f ≠ g := by
    rintro rfl
    exact (List.nodup_middle.1 (nodup_files hfs hrun)).notMem hg
  have hg' : g ∈ before ++ f :: after := by
    rcases List.mem_append.1 hg with hg | hg <;> simp [hg]
  exact suiteAt?_written h (fun hplace' => hne (eq_of_leadsTo_path hfs hrun hf hg' hplace hplace').2) settings

/-- **What another content of a file does to the suites**: nothing, or the suite of the file is another one. -/
theorem loadSuites_of_replaced (hfs : fs.Proper) (hold : fs.node? place = some (.file old))
    (hmodule : ∀ directory, ¬ fs.LeadsTo directory "go.mod" place) (base : List String) (root : String)
    (settings : Settings) (content : Bytes) :
    let fs' := fs.put place (.file content)
    Id.run (loadSuites (fs'.view base) root settings) = Id.run (loadSuites (fs.view base) root settings) ∨
      ∃ found files f above below,
        Id.run (testFiles (fs.view base) root settings.excludeDirs) = .ok (found, files) ∧ f ∈ files ∧
        f.path = Path.ofNames place ∧
        Id.run (loadSuites (fs.view base) root settings) = .ok (above ++ (suiteOf settings f old).toList ++ below) ∧
        Id.run (loadSuites (fs'.view base) root settings) =
          .ok (above ++ (suiteOf settings f content).toList ++ below) := by
  intro fs'
  have h : fs.Written place content fs' := FileSystem.written_put_of_file hold content
  have hplace : Unnoticed fs place := ⟨hmodule, .inl ⟨old, hold⟩⟩
  have hfs' : fs'.Proper := hfs.put_of_file hold content
  by_cases hother : ∀ found files, Id.run (testFiles (fs.view base) root settings.excludeDirs) = .ok (found, files) →
      ∀ f ∈ files, ¬ fs.LeadsTo base f.path place
  · exact .inl (loadSuites_written h hplace hfs hfs' hother)
  · right
    push Not at hother
    obtain ⟨found, files, hrun, f, hf, hleads⟩ := hother
    have path : f.path = Path.ofNames place := (eq_of_leadsTo_path hfs hrun hf hf hleads hleads).1
    obtain ⟨before, after, rfl⟩ := List.append_of_mem hf
    have others := suiteAt?_eq_of_mem_others h hfs hrun hleads settings
    have own := suiteAt?_eq_suiteOf hfs hold hrun hf hleads settings
    have own' : suiteAt? fs' base settings f = suiteOf settings f content := by
      rw [suiteAt?, h.read_of_leadsTo hleads]
    refine ⟨found, _, f, before.filterMap (suiteAt? fs base settings), after.filterMap (suiteAt? fs base settings),
      hrun, hf, path, ?_, ?_⟩
    · rw [loadSuites_eq_ok hrun, filterMap_append_cons, own]
    · have search := testFiles_written h hplace hfs hfs' base root settings.excludeDirs
      rw [loadSuites_eq_ok (search.trans hrun), filterMap_append_cons, own',
        List.filterMap_congr fun g hg => others g (List.mem_append_left _ hg),
        List.filterMap_congr fun g hg => others g (List.mem_append_right _ hg)]

/-- **A file that is neither a test file nor read as a module file** makes no difference. -/
theorem loadSuites_of_added (hfs : fs.Proper) (hdir : fs.node? outer = some (.directory entries))
    (hvacant : entries.lookup name = none) (hname : Path.IsName name) (htest : ¬ ∃ stem, name = stem ++ "_test.go")
    (hmodule : ∀ directory, ¬ fs.LeadsTo directory "go.mod" (outer ++ [name])) (base : List String) (root : String)
    (settings : Settings) (content : Bytes) :
    Id.run (loadSuites ((fs.put (outer ++ [name]) (.file content)).view base) root settings) =
      Id.run (loadSuites (fs.view base) root settings) := by
  have h := FileSystem.written_put_of_vacant hdir hvacant content
  have hplace : Unnoticed fs (outer ++ [name]) := ⟨hmodule, .inr (by simpa using htest)⟩
  refine loadSuites_written h hplace hfs (hfs.put_of_vacant hdir hname content) fun found files hrun f hf hleads => ?_
  -- Nothing lies there that could be found.
  obtain ⟨directory, hways⟩ := exists_discovered_of_mem hfs hrun
  obtain ⟨way, hway, rfl⟩ := hways f hf
  obtain ⟨old, hold⟩ := hway.file
  rw [(hway.leadsTo_path_iff hfs found base _).1 hleads, FileSystem.node?_concat hdir, hvacant] at hold
  cases hold

/-- **One file does not disturb another.** The suites that are loaded are, in the order of the relative paths, those of
the files that are found, each from its own content, package and name; the files that cannot be read, do not parse or
have no test function are left out, and loading fails exactly if the search does. So another content of one file
changes, adds or removes at most the suite of that file, and a new file that does not have the name of a test file
changes nothing, as long as no module file is looked for at the place of the file. -/
theorem loadSuites_independent (root : String) (settings : Settings) :
    (∀ view : FileView Id,
      match Id.run (testFiles view root settings.excludeDirs) with
      | .error e => Id.run (loadSuites view root settings) = .error e.toFailure
      | .ok (_, files) =>
        files.Pairwise (fun f g => f.relativePath ≤ g.relativePath) ∧
          Id.run (loadSuites view root settings) =
            .ok (files.filterMap fun f => suiteFrom? settings f (Id.run (view.read f.path)))) ∧
    (∀ f answer, (suiteFrom? settings f answer = none ↔ PassedOver settings answer) ∧
      ∀ suite, suiteFrom? settings f answer = some suite →
        suite.package = f.package ∧ suite.name = f.name ∧ suite.units ≠ []) ∧
    (∀ (fs : FileSystem) (base place : List String) (old content : Bytes), fs.Proper →
      fs.node? place = some (.file old) → (∀ directory, ¬ fs.LeadsTo directory "go.mod" place) →
      let fs' := fs.put place (.file content)
      Id.run (loadSuites (fs'.view base) root settings) = Id.run (loadSuites (fs.view base) root settings) ∨
        ∃ found files f above below,
          Id.run (testFiles (fs.view base) root settings.excludeDirs) = .ok (found, files) ∧ f ∈ files ∧
          f.path = Path.ofNames place ∧
          Id.run (loadSuites (fs.view base) root settings) = .ok (above ++ (suiteOf settings f old).toList ++ below) ∧
          Id.run (loadSuites (fs'.view base) root settings) =
            .ok (above ++ (suiteOf settings f content).toList ++ below)) ∧
    (∀ (fs : FileSystem) (base outer : List String) (entries : List (String × FileNode)) (name : String)
      (content : Bytes), fs.Proper → fs.node? outer = some (.directory entries) → entries.lookup name = none →
      Path.IsName name → (¬ ∃ stem, name = stem ++ "_test.go") →
      (∀ directory, ¬ fs.LeadsTo directory "go.mod" (outer ++ [name])) →
      Id.run (loadSuites ((fs.put (outer ++ [name]) (.file content)).view base) root settings) =
        Id.run (loadSuites (fs.view base) root settings)) := by
  refine ⟨fun view => ?_, fun f answer => ⟨suiteFrom?_eq_none_iff, fun suite => of_suiteFrom?⟩, ?_, ?_⟩
  · rw [run_loadSuites_view]
    cases hrun : Id.run (testFiles view root settings.excludeDirs) with
    | error e => rfl
    | ok result => exact ⟨pairwise_testFiles hrun, rfl⟩
  · intro fs base place old content hfs hold hmodule
    exact loadSuites_of_replaced hfs hold hmodule base root settings content
  · intro fs base outer entries name content hfs hdir hvacant hname htest hmodule
    exact loadSuites_of_added hfs hdir hvacant hname htest hmodule base root settings content

/-! ### Module files behind links -/

/-- A module whose module file is a link to one of its test files, with a directory in it whose module file is a link
that leads nowhere. -/
def linkedModule : FileSystem where
  root := .directory [
    ("a_test.go", .file (Bytes.ofString "/*\nmodule m\n*/\nfunc TestA() {}\n")),
    ("go.mod", .link "a_test.go"),
    ("s", .directory [
      ("c_test.go", .file (Bytes.ofString "func TestC() {}\n")),
      ("go.mod", .link "x.txt")])]

theorem proper_linkedModule : linkedModule.Proper := by
  simp only [FileSystem.Proper, linkedModule, FileNode.proper_directory_iff, FileNode.Proper.file, FileNode.Proper.link,
    List.forall_mem_cons, List.not_mem_nil, and_true, false_imp_iff, implies_true]
  decide

/-- The module file leads to a test file. -/
theorem locate_linkedModule : linkedModule.locate [] "go.mod" = .ok (.existing ["a_test.go"]) := by
  have link : linkedModule.locate [] "go.mod" = linkedModule.follow 39 [] ["a_test.go"] :=
    FileSystem.locate_of_link rfl isName_fileName rfl (by decide)
  rw [FileSystem.follow_cons rfl (by decide)] at link
  exact link.trans (by simp [FileSystem.follow])

/-- The module file of the directory further down leads to where there is no file. -/
theorem locate_inner_linkedModule : linkedModule.locate ["s"] "go.mod" = .ok (.vacant ["s", "x.txt"]) := by
  have link : linkedModule.locate ["s"] "go.mod" = linkedModule.follow 39 ["s"] ["x.txt"] :=
    FileSystem.locate_of_link rfl isName_fileName rfl (by decide)
  rw [FileSystem.follow_cons rfl (by decide)] at link
  exact link.trans (by simp [List.lookup_cons])

theorem owns_linkedModule : Owns linkedModule [] "m" [] := by
  have declares : Declares linkedModule [] "m" := by
    refine ⟨"/*\nmodule m\n*/\nfunc TestA() {}\n", ?_, by decide⟩
    rw [FileSystem.read, FileSystem.resolve, locate_linkedModule]
    rfl
  exact (owns_iff_of_isFile declares.isFile).2 ⟨rfl, declares⟩

theorem discovered_linkedModule : Discovered linkedModule [] [] ["s", "c_test.go"] := by
  have noModule : linkedModule.isFile ["s"] "go.mod" = false := by
    rw [FileSystem.isFile, FileSystem.find?, FileSystem.resolve, locate_inner_linkedModule]
  refine ⟨⟨_, rfl⟩, ⟨"c", by decide⟩, fun outer hne hon => ?_⟩
  obtain ⟨rest, rfl, hrest⟩ := (List.prefix_cons_iff.1 hon).resolve_left hne
  have dot : ¬ ∃ rest, "s" = "." ++ rest := fun h => absurd ((head?_toList_eq_some_iff rfl).2 h) (by decide)
  have line : ¬ ∃ rest, "s" = "_" ++ rest := fun h => absurd ((head?_toList_eq_some_iff rfl).2 h) (by decide)
  have kept : ¬ IsIgnored [] "s" := by simp [IsIgnored, dot, line]
  rw [List.prefix_nil.1 hrest, skipped_concat_iff]
  simp [kept, noModule]

/-- The file in the directory further down makes up a suite. -/
theorem exists_loadSuites_linkedModule :
    ∃ suites, Id.run (loadSuites (linkedModule.view []) "/" {}) = .ok suites ∧
      ∃ suite ∈ suites, suite.name = "c_test.go" := by
  have place := FileSystem.resolve_slash proper_linkedModule rfl []
  have found : Id.run (testFiles (linkedModule.view []) "/" []) = .ok (⟨Path.ofNames [], "m"⟩, _) :=
    (testFiles_eq_ok_iff proper_linkedModule place rfl).2 ⟨⟨[], "m", owns_linkedModule, rfl⟩, rfl⟩
  have parsed : ((Source.parse? (Bytes.ofString "func TestC() {}\n")).bind fun f => f.suite? {} "" "").isSome := by
    decide +kernel
  let f := TestFile.ofNames ⟨Path.ofNames [], "m"⟩ [] ["s", "c_test.go"]
  have read : linkedModule.read [] f.path = .ok (Bytes.ofString "func TestC() {}\n") :=
    FileSystem.read_ofNames_of_file proper_linkedModule rfl (by simp) []
  obtain ⟨suite, hsuite⟩ := exists_suiteOf parsed f
  have made : suiteAt? linkedModule [] {} f = some suite := by
    rw [suiteAt?, read]
    exact hsuite
  refine ⟨_, loadSuites_eq_ok found, suite, List.mem_filterMap.2 ⟨f, ?_, made⟩, ?_⟩
  · exact List.mem_map_of_mem ((mem_sortedWays_iff proper_linkedModule rfl).2 discovered_linkedModule)
  · rw [suiteAt?_eq_suiteFrom?] at made
    exact (of_suiteFrom? made).2.1

/-- Without the declaration in the test file that the module file leads to, there is no module. -/
theorem loadSuites_ne_ok_linkedModule (suites : List TestSuite) :
    Id.run (loadSuites ((linkedModule.put ["a_test.go"] (.file (Bytes.ofString "func TestA() {}\n"))).view []) "/" {}) ≠
      .ok suites := by
  obtain ⟨content, hcontent⟩ : ∃ content, content = Bytes.ofString "func TestA() {}\n" := ⟨_, rfl⟩
  have undeclared : GoModule.declaredPath? "func TestA() {}\n" = none := by decide
  have h : linkedModule.Written ["a_test.go"] content _ := FileSystem.written_put_of_file rfl content
  have hfs := proper_linkedModule.put_of_file (rfl : linkedModule.node? ["a_test.go"] = some (.file _)) content
  have declaration := h.read_of_leadsTo ⟨_, locate_linkedModule, rfl⟩
  obtain ⟨entries, hdir⟩ := h.exists_directory (rfl : linkedModule.node? [] = some (.directory _))
  rw [← hcontent]
  intro hload
  rw [run_loadSuites] at hload
  cases hrun : Id.run (testFiles ((linkedModule.put ["a_test.go"] (.file content)).view [])
      "/" ({} : Settings).excludeDirs) with
  | error e => rw [hrun] at hload; cases hload
  | ok result =>
      obtain ⟨found, files⟩ := result
      obtain ⟨⟨owner, path, howns, -⟩, -⟩ :=
        (testFiles_eq_ok_iff hfs (FileSystem.resolve_slash hfs hdir []) hdir).1 hrun
      obtain ⟨-, text, htext, hpath⟩ := (owns_iff_of_isFile (FileSystem.isFile_of_read declaration)).1 howns
      rw [declaration, hcontent, Except.ok.injEq, ← Bytes.decode?_eq_some_iff, Bytes.decode?_eq_some_iff.2 rfl,
        Option.some_inj] at htext
      rw [← htext, undeclared] at hpath
      cases hpath

/-- There is one directory in the root directory, and none in that one. -/
theorem eq_of_node?_linkedModule {directory : List String}
    (h : linkedModule.node? directory = some (.directory entries)) : directory = [] ∨ directory = ["s"] := by
  rcases directory with _ | ⟨first, rest⟩
  · exact .inl rfl
  · right
    rw [← List.singleton_append] at h
    obtain ⟨outer, houter⟩ := exists_node?_of_append h
    obtain rfl : first = "s" := by
      by_contra hne
      have hs : (first == "s") = false := by simpa using hne
      have found : linkedModule.node? ([] ++ [first]) = _ := FileSystem.node?_concat rfl first
      rw [List.nil_append, houter, List.lookup_cons] at found
      cases ha : first == "a_test.go" <;> cases hg : first == "go.mod" <;>
        simp [ha, hg, hs, List.lookup_cons] at found
    rcases rest with _ | ⟨second, rest⟩
    · rfl
    · rw [List.append_cons] at h
      obtain ⟨outer, houter⟩ := exists_node?_of_append h
      have found : linkedModule.node? (["s"] ++ [second]) = _ := FileSystem.node?_concat rfl second
      rw [houter, List.lookup_cons] at found
      cases hc : second == "c_test.go" <;> cases hg : second == "go.mod" <;>
        simp [hc, hg, List.lookup_cons] at found

/-- Module files are looked for at two places. -/
theorem eq_of_leadsTo_linkedModule {directory : List String}
    (h : linkedModule.LeadsTo directory "go.mod" place) : place = ["a_test.go"] ∨ place = ["s", "x.txt"] := by
  obtain ⟨entries, hdir⟩ := FileSystem.exists_directory_of_leadsTo isName_fileName h
  obtain ⟨p, hp, rfl⟩ := h
  rcases eq_of_node?_linkedModule hdir with rfl | rfl
  · obtain rfl := Except.ok.inj (locate_linkedModule.symm.trans hp)
    exact .inl rfl
  · obtain rfl := Except.ok.inj (locate_inner_linkedModule.symm.trans hp)
    exact .inr rfl

/-- With a file where its module file leads, a directory is left out. -/
theorem exists_loadSuites_put_linkedModule :
    ∃ suites, Id.run (loadSuites ((linkedModule.put ["s", "x.txt"] (.file [])).view []) "/" {}) = .ok suites ∧
      ∀ suite ∈ suites, suite.name ≠ "c_test.go" := by
  have h : linkedModule.Written ["s", "x.txt"] [] (linkedModule.put ["s", "x.txt"] (.file [])) :=
    FileSystem.written_put_of_vacant (rfl : linkedModule.node? ["s"] = some (.directory _)) rfl []
  have hfs : (linkedModule.put ["s", "x.txt"] (.file [])).Proper :=
    proper_linkedModule.put_of_vacant (rfl : linkedModule.node? ["s"] = some (.directory _)) (by decide) []
  generalize linkedModule.put ["s", "x.txt"] (.file []) = fs at h hfs
  obtain ⟨entries, hdir⟩ := h.exists_directory (rfl : linkedModule.node? [] = some (.directory _))
  obtain ⟨inner, hinner⟩ := h.exists_directory (rfl : linkedModule.node? ["s"] = some (.directory _))
  have skipped : Skipped fs [] ["s"] := .inr (FileSystem.isFile_of_read
    (h.read_of_leadsTo ⟨_, locate_inner_linkedModule, rfl⟩))
  have declares : Declares fs [] "m" := by
    obtain ⟨text, htext, hpath⟩ := owns_linkedModule.declares
    have elsewhere : ¬ linkedModule.LeadsTo [] "go.mod" ["s", "x.txt"] := by
      rintro ⟨p, hp, hnames⟩
      obtain rfl := Except.ok.inj (locate_linkedModule.symm.trans hp)
      exact absurd hnames (by decide)
    exact ⟨text, h.read_of_read elsewhere htext, hpath⟩
  have owns : Owns fs [] "m" [] := (owns_iff_of_isFile declares.isFile).2 ⟨rfl, declares⟩
  have found : Id.run (testFiles (fs.view []) "/" []) = .ok (⟨Path.ofNames [], "m"⟩, _) :=
    (testFiles_eq_ok_iff hfs (FileSystem.resolve_slash hfs hdir []) hdir).2 ⟨⟨[], "m", owns, rfl⟩, rfl⟩
  refine ⟨_, loadSuites_eq_ok found, fun suite hsuite hname => ?_⟩
  obtain ⟨f, hf, hmade⟩ := List.mem_filterMap.1 hsuite
  obtain ⟨way, hway, rfl⟩ := List.mem_map.1 hf
  rw [mem_sortedWays_iff hfs hdir] at hway
  rw [suiteAt?_eq_suiteFrom?] at hmade
  rw [(of_suiteFrom? hmade).2.1, TestFile.ofNames] at hname
  obtain ⟨first, rest, rfl⟩ := List.exists_cons_of_ne_nil hway.ne_nil
  by_cases hfirst : first = "s"
  · subst hfirst
    exact ((discovered_cons_iff hinner).1 hway).1 skipped
  · have file : ∀ entries, fs.node? ([] ++ [first]) ≠ some (.directory entries) := by
      intro entries hdirectory
      obtain ⟨outer, houter⟩ := h.exists_directory_before hdirectory
      rcases eq_of_node?_linkedModule houter with hnil | heq
      · cases hnil
      · exact hfirst (List.cons.inj heq).1
    obtain ⟨rfl, ⟨content, hcontent⟩, -⟩ := (discovered_cons_iff_of_ne file).1 hway
    obtain rfl : first = "c_test.go" := by simpa using hname
    have same := h.elsewhere ["c_test.go"] (by simp)
    rw [List.nil_append] at hcontent
    rw [hcontent] at same
    cases same

/-- **One file disturbs another through a link.** In a module whose module file is a link to a test file, another
content of that file takes away the module with all suites; and a file that has neither the name of a test file nor
that of a module file, added where a link with the name of module files leads, takes away the suites of a directory. -/
theorem exists_suite_lost :
    linkedModule.Proper ∧
    (∃ suites, Id.run (loadSuites (linkedModule.view []) "/" {}) = .ok suites ∧
      ∃ suite ∈ suites, suite.name = "c_test.go") ∧
    ((∃ old, linkedModule.node? ["a_test.go"] = some (.file old)) ∧
      let fs' := linkedModule.put ["a_test.go"] (.file (Bytes.ofString "func TestA() {}\n"))
      ∀ suites, Id.run (loadSuites (fs'.view []) "/" {}) ≠ .ok suites) ∧
    (∃ entries, linkedModule.node? ["s"] = some (.directory entries) ∧ entries.lookup "x.txt" = none) ∧
    let fs' := linkedModule.put ["s", "x.txt"] (.file [])
    ∃ suites, Id.run (loadSuites (fs'.view []) "/" {}) = .ok suites ∧ ∀ suite ∈ suites, suite.name ≠ "c_test.go" :=
  ⟨proper_linkedModule, exists_loadSuites_linkedModule, ⟨⟨_, rfl⟩, loadSuites_ne_ok_linkedModule⟩, ⟨_, rfl, rfl⟩,
    exists_loadSuites_put_linkedModule⟩

/-- Another content of the test file further down, and a new file beside it to which no link leads. -/
theorem loadSuites_independent_linkedModule :
    linkedModule.Proper ∧ (∀ directory, ¬ linkedModule.LeadsTo directory "go.mod" ["s", "c_test.go"]) ∧
    (∃ old, linkedModule.node? ["s", "c_test.go"] = some (.file old) ∧
      let fs' := linkedModule.put ["s", "c_test.go"] (.file [])
      (Id.run (loadSuites (fs'.view []) "/" {}) = Id.run (loadSuites (linkedModule.view []) "/" {}) ∨
        ∃ found files f above below,
          Id.run (testFiles (linkedModule.view []) "/" []) = .ok (found, files) ∧ f ∈ files ∧
          f.path = Path.ofNames ["s", "c_test.go"] ∧
          Id.run (loadSuites (linkedModule.view []) "/" {}) = .ok (above ++ (suiteOf {} f old).toList ++ below) ∧
          Id.run (loadSuites (fs'.view []) "/" {}) = .ok (above ++ (suiteOf {} f []).toList ++ below))) ∧
    (∀ directory, ¬ linkedModule.LeadsTo directory "go.mod" (["s"] ++ ["y.txt"])) ∧
    Id.run (loadSuites ((linkedModule.put (["s"] ++ ["y.txt"]) (.file [])).view []) "/" {}) =
      Id.run (loadSuites (linkedModule.view []) "/" {}) := by
  have replaced : ∀ directory, ¬ linkedModule.LeadsTo directory "go.mod" ["s", "c_test.go"] := by
    intro directory h
    rcases eq_of_leadsTo_linkedModule h with h | h <;> exact absurd h (by decide)
  have added : ∀ directory, ¬ linkedModule.LeadsTo directory "go.mod" (["s"] ++ ["y.txt"]) := by
    intro directory h
    rcases eq_of_leadsTo_linkedModule h with h | h <;> exact absurd h (by decide)
  have noTest : ¬ ∃ stem, "y.txt" = stem ++ "_test.go" := fun h => absurd (isTestFile_iff.2 h) (by decide)
  obtain ⟨-, -, replace, add⟩ := loadSuites_independent "/" {}
  exact ⟨proper_linkedModule, replaced, ⟨_, rfl, replace linkedModule [] _ _ [] proper_linkedModule rfl replaced⟩,
    added, add linkedModule [] ["s"] _ "y.txt" [] proper_linkedModule rfl rfl (by decide) noTest added⟩

end Discovery

end SuiteReport.Go
