import SuiteReport.Command.Run
import SuiteReport.Proofs.Discovery.Stability
import SuiteReport.Proofs.Report.Agreement
import SuiteReport.Proofs.Results.Acceptance
/-!
# Writing a report

A report comes about in three stages. The search for test files can fail, and then nothing is written. The results of
the test run cannot fail: what cannot be read as a whole counts as no results at all. At last the report is written,
which can fail once more, and then nothing has changed either.

## Main definitions

* `ResultsOf`: the results that the file of a test run stands for.
* `PreparedReport.of`: the report on some suites and results.

## Main results

* `FileSystem.report_eq`: how a report can end.
* `FileSystem.report_safe`: what a report does, and what it leaves alone.
* `FileSystem.report_again`: to write a report a second time changes nothing.
-/

namespace SuiteReport

open Go.Discovery (testFiles Unnoticed)

variable {fs fs' : FileSystem} {base place : List String} {request : ReportRequest} {settings : Settings}
  {results : Results} {r : PreparedReport}

/-! ### Results -/

/-- The results that a test run has when its file is read with some outcome: those in the file, or none at all if the
file cannot be read, is no text, or is no report. -/
inductive ResultsOf (answer : Except FileError Bytes) : Results → Prop where
  /-- The file is a report. -/
  | parsed {xml : String} {results : Results} (hread : answer = .ok (Bytes.ofString xml))
      (hparse : JUnit.parse xml = .ok results) : ResultsOf answer results
  /-- The file is of no use. -/
  | unusable (h : ∀ xml results, answer = .ok (Bytes.ofString xml) → JUnit.parse xml ≠ .ok results) :
      ResultsOf answer .empty

/-- The results in a file with some content, if it is a report. -/
def reportedResults? (content : Bytes) : Option Results :=
  (Bytes.decode? content).bind fun xml => (JUnit.parse xml).toOption

/-- A content is a report exactly if it encodes one. -/
theorem reportedResults?_eq_some_iff {content : Bytes} :
    reportedResults? content = some results ↔
      ∃ xml, content = Bytes.ofString xml ∧ JUnit.parse xml = .ok results := by
  rw [reportedResults?, Option.bind_eq_some_iff]
  refine exists_congr fun xml => and_congr Bytes.decode?_eq_some_iff ?_
  cases JUnit.parse xml <;> simp [Except.toOption]

/-- What loading results comes to depends on the content of the file, if it has one. -/
theorem run_loadResults (fs : FileSystem) (base : List String) (path : String) :
    Id.run (loadResults (fs.view base) path) =
      ((fs.read base path).toOption.bind reportedResults?).getD .empty := by
  unfold loadResults
  simp only [Id.run_bind, Go.Discovery.run_readText]
  cases fs.read base path with
  | error e => rfl
  | ok content =>
      cases hdecoded : Bytes.decode? content with
      | none => simp [Except.toOption, reportedResults?, hdecoded]
      | some xml => cases hparse : JUnit.parse xml <;> simp [Except.toOption, reportedResults?, hdecoded, hparse]

/-- **The results that are loaded** are those of the file, or none. -/
theorem resultsOf_loadResults (fs : FileSystem) (base : List String) (path : String) :
    ResultsOf (fs.read base path) (Id.run (loadResults (fs.view base) path)) := by
  rw [run_loadResults]
  cases hread : fs.read base path with
  | error e => exact .unusable fun xml results h => by cases h
  | ok content =>
      rw [Except.toOption, Option.bind_some]
      cases hresults : reportedResults? content with
      | none =>
          refine .unusable fun xml results hxml hparse => ?_
          rw [reportedResults?_eq_some_iff.2 ⟨xml, Except.ok.inj hxml, hparse⟩] at hresults
          cases hresults
      | some results =>
          obtain ⟨xml, rfl, hparse⟩ := reportedResults?_eq_some_iff.1 hresults
          exact .parsed rfl hparse

/-- No key occurs twice in the results of a file. -/
theorem ResultsOf.distinct {answer : Except FileError Bytes} (h : ResultsOf answer results) : results.Distinct := by
  cases h with
  | parsed hread hparse => exact JUnit.distinct_of_parse hparse
  | unusable h => exact Results.distinct_empty

/-! ### The report that is written -/

/-- The report on some suites and results. -/
def PreparedReport.of (request : ReportRequest) (settings : Settings) (suites : List TestSuite) (results : Results) :
    PreparedReport where
  output := request.output
  document := reportDocument request.format suites results (request.failSnippet.getD settings.failSnippet)
  suites := suites.length
  units := TestSuite.countAll suites
  results := results.size

/-- What preparing a report comes to. -/
theorem run_prepareReport (fs : FileSystem) (base : List String) (request : ReportRequest) (settings : Settings) :
    Id.run (prepareReport (fs.view base) request settings) =
      (Id.run (loadSuites (fs.view base) request.source settings)).map fun suites =>
        .of request settings suites (Id.run (loadResults (fs.view base) request.junit)) := by
  unfold prepareReport
  cases hload : Id.run (loadSuites (fs.view base) request.source settings) with
  | error e => simp [hload, Except.map]
  | ok suites =>
      simp only [Id.run_bind, hload, Except.map]
      rfl

/-- The units that are counted are all units of the suites. -/
theorem countAll_eq_length (suites : List TestSuite) :
    TestSuite.countAll suites = (suites.flatMap fun s => TestUnit.preorderAll s.units).length := by
  induction suites with
  | nil => rfl
  | cons s suites ih =>
      rw [TestSuite.countAll, List.flatMap_cons, List.length_append, ← ih, TestSuite.count, Markdown.length_preorderAll]

/-- Without results no unit has been run. -/
theorem status_of_mem_ofUnits_empty {limit : Nat} {package : String} {us : List TestUnit}
    {entry : List String × UnitEntry}
    (h : entry ∈ UnitEntry.placesAll [] (UnitEntry.ofUnits .empty limit package us)) : entry.2.status = .notRun := by
  rw [UnitEntry.placesAll_ofUnits] at h
  obtain ⟨⟨above, name, machineName, comment, subtests⟩, -, rfl⟩ := List.mem_map.1 h
  rfl

namespace FileSystem

/-- **What a report comes to**, stage by stage. -/
theorem report_eq (fs : FileSystem) (base : List String) (request : ReportRequest) (settings : Settings) :
    fs.report base request settings =
      match Id.run (loadSuites (fs.view base) request.source settings) with
      | .error e => (.error e, fs)
      | .ok suites =>
        let r := PreparedReport.of request settings suites (Id.run (loadResults (fs.view base) request.junit))
        match fs.write base request.output (Bytes.ofString r.document) with
        | .error e => (.error (outputFailure request.output e), fs)
        | .ok fs' => (.ok r, fs') := by
  have prepared : prepareReport (fs.view base) request settings = _ := run_prepareReport fs base request settings
  simp only [report, prepared]
  cases Id.run (loadSuites (fs.view base) request.source settings) <;> rfl

/-- A report that has been written is the one on what was found, and its file is the only change. -/
theorem exists_of_report (h : fs.report base request settings = (.ok r, fs')) :
    ∃ suites, Id.run (loadSuites (fs.view base) request.source settings) = .ok suites ∧
      r = .of request settings suites (Id.run (loadResults (fs.view base) request.junit)) ∧
      fs.write base request.output (Bytes.ofString r.document) = .ok fs' := by
  rw [report_eq] at h
  cases hload : Id.run (loadSuites (fs.view base) request.source settings) with
  | error e => simp [hload] at h
  | ok suites =>
      simp only [hload] at h
      split at h
      · simp at h
      · next hwrite =>
          obtain ⟨hr, rfl⟩ := Prod.mk.inj h
          obtain rfl := Except.ok.inj hr
          exact ⟨suites, rfl, rfl, hwrite⟩

/-- A report that fails changes nothing, and fails for one of two reasons. -/
theorem of_report_error {e : Failure} (h : fs.report base request settings = (.error e, fs')) :
    fs' = fs ∧ (Id.run (loadSuites (fs.view base) request.source settings) = .error e ∨
      ∃ content e', fs.write base request.output content = .error e' ∧ e = outputFailure request.output e') := by
  rw [report_eq] at h
  cases hload : Id.run (loadSuites (fs.view base) request.source settings) with
  | error e' =>
      simp only [hload] at h
      obtain ⟨he, rfl⟩ := Prod.mk.inj h
      exact ⟨rfl, .inl (congrArg Except.error (Except.error.inj he))⟩
  | ok suites =>
      simp only [hload] at h
      split at h
      · next e' hwrite =>
          obtain ⟨he, rfl⟩ := Prod.mk.inj h
          exact ⟨rfl, .inr ⟨_, e', hwrite, (Except.error.inj he).symm⟩⟩
      · simp at h

/-- The suites cannot be loaded exactly if the search fails. -/
theorem loadSuites_eq_error_iff {e : Failure} {root : String} :
    Id.run (loadSuites (fs.view base) root settings) = .error e ↔
      ∃ e', Id.run (testFiles (fs.view base) root settings.excludeDirs) = .error e' ∧ e'.toFailure = e := by
  rw [Go.Discovery.run_loadSuites]
  cases Id.run (testFiles (fs.view base) root settings.excludeDirs) <;> simp

/-- A report fails exactly if the search fails or its file cannot be written, whatever it is to hold. -/
theorem exists_report_error_iff :
    (∃ e, (fs.report base request settings).1 = .error e) ↔
      (∃ e, Id.run (testFiles (fs.view base) request.source settings.excludeDirs) = .error e) ∨
        ∀ content, ∃ e, fs.write base request.output content = .error e := by
  constructor
  · rintro ⟨e, he⟩
    obtain ⟨-, hload | ⟨content, e', hwrite, -⟩⟩ := of_report_error (Prod.ext he rfl)
    · obtain ⟨e', hsearch, -⟩ := loadSuites_eq_error_iff.1 hload
      exact .inl ⟨e', hsearch⟩
    · refine .inr fun other => ?_
      cases hother : fs.write base request.output other with
      | error e => exact ⟨e, rfl⟩
      | ok fs'' =>
          obtain ⟨fs', hok⟩ := exists_write_of_write hother content
          rw [hwrite] at hok
          cases hok
  · intro h
    cases hout : (fs.report base request settings).1 with
    | error e => exact ⟨e, rfl⟩
    | ok r =>
        obtain ⟨suites, hload, -, hwrite⟩ := exists_of_report (Prod.ext hout rfl)
        rcases h with ⟨e, hsearch⟩ | hunwritable
        · rw [loadSuites_eq_error_iff.2 ⟨e, hsearch, rfl⟩] at hload
          cases hload
        · obtain ⟨e, he⟩ := hunwritable (Bytes.ofString r.document)
          rw [hwrite] at he
          cases he

/-- **Only the file of the report changes.** -/
theorem map_bare_node?_report (hplace : ¬ fs.LeadsTo base request.output place) :
    ((fs.report base request settings).2.node? place).map FileNode.bare = (fs.node? place).map FileNode.bare := by
  cases hout : (fs.report base request settings).1 with
  | error e =>
      have unchanged : (fs.report base request settings).2 = fs := (of_report_error (Prod.ext hout rfl)).1
      rw [unchanged]
  | ok r =>
      obtain ⟨suites, -, -, hwrite⟩ := exists_of_report (Prod.ext hout rfl)
      obtain ⟨written, hleads, -, h, -⟩ := exists_of_write hwrite
      refine h.elsewhere place ?_
      rintro rfl
      exact hplace hleads

/-- **A report is safe on errors.** It fails exactly if the search for test files fails or its file cannot be written.
If the search fails, nothing has changed, and in no case anything but the file of the report. A report that does not
fail holds the suites that are found, with the results of the test run or, if these are of no use, with none, so that
no test has been run; and the numbers in its summary are those of the suites, of the units and of the keys of the
results. -/
theorem report_safe (fs : FileSystem) (base : List String) (request : ReportRequest) (settings : Settings) :
    let search := Id.run (testFiles (fs.view base) request.source settings.excludeDirs)
    let outcome := fs.report base request settings
    let limit := request.failSnippet.getD settings.failSnippet
    ((∃ e, outcome.1 = .error e) ↔
      (∃ e, search = .error e) ∨ ∀ content, ∃ e, fs.write base request.output content = .error e) ∧
    (∀ e, search = .error e → outcome = (.error e.toFailure, fs)) ∧
    (∀ place, ¬ fs.LeadsTo base request.output place →
      (outcome.2.node? place).map FileNode.bare = (fs.node? place).map FileNode.bare) ∧
    (∀ r, outcome.1 = .ok r → ∃ suites results,
      Id.run (loadSuites (fs.view base) request.source settings) = .ok suites ∧
      ResultsOf (fs.read base request.junit) results ∧
      outcome.2.read base request.output = .ok (Bytes.ofString (reportDocument request.format suites results limit)) ∧
      r.output = request.output ∧ r.suites = suites.length ∧
      r.units = (suites.flatMap fun s => TestUnit.preorderAll s.units).length ∧
      ∃ keys : List String, keys.Nodup ∧ (∀ key, key ∈ keys ↔ (results.get? key).isSome) ∧ r.results = keys.length) ∧
    ∀ s : TestSuite, ∀ entry ∈ UnitEntry.placesAll [] (SuiteEntry.ofSuite .empty limit s).units,
      entry.2.status = .notRun := by
  refine ⟨exists_report_error_iff, ?_, fun place => map_bare_node?_report, ?_,
    fun s entry => status_of_mem_ofUnits_empty⟩
  · intro e hsearch
    rw [report_eq, loadSuites_eq_error_iff.2 ⟨e, hsearch, rfl⟩]
  · intro r hr
    obtain ⟨suites, hload, rfl, hwrite⟩ := exists_of_report (Prod.ext hr rfl)
    obtain ⟨place, hleads, -, h, -⟩ := exists_of_write hwrite
    have results := resultsOf_loadResults fs base request.junit
    refine ⟨suites, _, hload, results, h.read_of_leadsTo hleads, rfl, rfl, countAll_eq_length suites,
      _, results.distinct, fun key => (Results.isSome_get?_iff _ key).symm, ?_⟩
    exact (List.length_map _).symm

/-! ### Once more -/

/-- **To write a report again changes nothing**, if its file is neither a test file nor the results of the test run,
and no module file is looked for where it is. -/
theorem report_again (hfs : fs.Proper) (houtput : fs.LeadsTo base request.output place)
    (htest : ¬ ∃ stem, place.getLast? = some (stem ++ "_test.go")) (hjunit : ¬ fs.LeadsTo base request.junit place)
    (hmodule : ∀ directory, ¬ fs.LeadsTo directory "go.mod" place)
    (hreport : fs.report base request settings = (.ok r, fs')) :
    fs'.report base request settings = (.ok r, fs') := by
  obtain ⟨suites, hload, rfl, hwrite⟩ := exists_of_report hreport
  obtain ⟨written, hleads, -, h, hproper⟩ := exists_of_write hwrite
  obtain rfl : written = place := hleads.unique houtput
  have same : Id.run (loadSuites (fs'.view base) request.source settings) =
      Id.run (loadSuites (fs.view base) request.source settings) := by
    refine Go.Discovery.loadSuites_written h ⟨hmodule, .inr htest⟩ hfs (hproper hfs)
      fun found files hrun f hf hpath => ?_
    -- Files that are found have the names of test files.
    obtain ⟨directory, hways⟩ := Go.Discovery.exists_discovered_of_mem hfs hrun
    obtain ⟨way, hway, rfl⟩ := hways f hf
    obtain ⟨stem, hstem⟩ := hway.name
    refine htest ⟨stem, ?_⟩
    rw [← (hway.leadsTo_path_iff hfs found base _).1 hpath, List.getLast?_append, hstem, Option.some_or]
  have results : Id.run (loadResults (fs'.view base) request.junit) =
      Id.run (loadResults (fs.view base) request.junit) := by
    rw [run_loadResults, run_loadResults, h.toOption_read hjunit]
  rw [report_eq, same, hload]
  simp only [results, write_eq_self hwrite]

/-! ### A test run whose results are broken off -/

/-- A module with a test file and with the results of a test run that break off behind a test case. -/
def brokenRun : FileSystem where
  root := .directory [
    ("go.mod", .file (Bytes.ofString "module m\n")),
    ("a_test.go", .file (Bytes.ofString "func TestA() {}\n")),
    ("junit.xml", .file (Bytes.ofString "<testsuite name=\"m\"><testcase name=\"TestA\"/><"))]

/-- The request to write a report into the module. -/
def brokenRunRequest (source : String) : ReportRequest := ⟨source, "junit.xml", "TESTS.md", .markdown, none⟩

theorem proper_brokenRun : brokenRun.Proper := by
  simp only [Proper, brokenRun, FileNode.proper_directory_iff, FileNode.Proper.file, List.forall_mem_cons,
    List.not_mem_nil, and_true, false_imp_iff, implies_true]
  decide

/-- There is one directory. -/
theorem eq_nil_of_node?_brokenRun {directory : List String} {entries : List (String × FileNode)}
    (h : brokenRun.node? directory = some (.directory entries)) : directory = [] := by
  rcases directory with _ | ⟨first, rest⟩
  · rfl
  · rw [← List.singleton_append] at h
    obtain ⟨outer, houter⟩ := Go.Discovery.exists_node?_of_append h
    have found : brokenRun.node? ([] ++ [first]) = _ := node?_concat rfl first
    rw [List.nil_append, houter, List.lookup_cons] at found
    cases hg : first == "go.mod" <;> cases ha : first == "a_test.go" <;> cases hj : first == "junit.xml" <;>
      simp [hg, ha, hj, List.lookup_cons] at found

theorem locate_output_brokenRun : brokenRun.locate [] "TESTS.md" = .ok (.vacant ["TESTS.md"]) :=
  locate_of_vacant rfl (by decide) rfl

/-- The file of the report lies elsewhere than every file that there is. -/
theorem not_leadsTo_output_brokenRun {name : String} {content : Bytes} (hname : Path.IsName name)
    (hfile : brokenRun.node? [name] = some (.file content)) : ¬ brokenRun.LeadsTo [] name ["TESTS.md"] := by
  rintro ⟨p, hp, heq⟩
  have located : brokenRun.locate [] name = .ok (.existing [name]) := locate_of_file hname hfile
  obtain rfl := Except.ok.inj (located.symm.trans hp)
  obtain rfl : name = "TESTS.md" := (List.cons.inj heq).1
  cases hfile

/-- The results of the test run are of no use. -/
theorem unusable_brokenRun : ResultsOf (brokenRun.read [] "junit.xml") results → results = .empty := by
  have read : brokenRun.read [] "junit.xml" = .ok _ := read_of_lookup rfl (by decide) rfl
  have broken : (JUnit.parse "<testsuite name=\"m\"><testcase name=\"TestA\"/><").toOption = none := by
    decide +kernel
  intro h
  cases h with
  | unusable => rfl
  | parsed hread hparse =>
      rw [read, Except.ok.injEq, ← Bytes.decode?_eq_some_iff, Bytes.decode?_eq_some_iff.2 rfl, Option.some_inj] at hread
      rw [hread, hparse] at broken
      cases broken

theorem exists_testFiles_brokenRun :
    ∃ files, Id.run (testFiles (brokenRun.view []) "/" []) = .ok (⟨Path.ofNames [], "m"⟩, files) := by
  have declares : Go.Discovery.Declares brokenRun [] "m" :=
    ⟨"module m\n", read_of_lookup rfl (by decide) rfl, by decide⟩
  have owns : Go.Discovery.Owns brokenRun [] "m" [] :=
    (Go.Discovery.owns_iff_of_isFile declares.isFile).2 ⟨rfl, declares⟩
  have place := resolve_slash proper_brokenRun rfl []
  exact ⟨_, (Go.Discovery.testFiles_eq_ok_iff proper_brokenRun place rfl).2 ⟨⟨[], "m", owns, rfl⟩, rfl⟩⟩

/-- A file can be written where the report is to be. -/
theorem write_brokenRun (content : Bytes) :
    brokenRun.write [] "TESTS.md" content = .ok (brokenRun.put ["TESTS.md"] (.file content)) := by
  have place : brokenRun.locateForWriting [] "TESTS.md" = .ok (.vacant ["TESTS.md"]) :=
    locateForWriting_eq_ok_iff.2 ⟨by decide, locate_output_brokenRun⟩
  rw [write, place]

/-- The report is written in spite of the results, and without them. -/
theorem report_safe_brokenRun :
    ∃ r suites, (brokenRun.report [] (brokenRunRequest "/") {}).1 = .ok r ∧
      Id.run (loadSuites (brokenRun.view []) "/" {}) = .ok suites ∧
      (brokenRun.report [] (brokenRunRequest "/") {}).2.read [] "TESTS.md" =
        .ok (Bytes.ofString (Markdown.report suites .empty 300)) ∧
      ((brokenRun.report [] (brokenRunRequest "/") {}).2.node? ["junit.xml"]).map FileNode.bare =
        (brokenRun.node? ["junit.xml"]).map FileNode.bare ∧
      ∃ e, brokenRun.report [] (brokenRunRequest "x") {} = (.error e, brokenRun) := by
  obtain ⟨fails, -, elsewhere, written, -⟩ := report_safe brokenRun [] (brokenRunRequest "/") {}
  obtain ⟨-, search, -⟩ := report_safe brokenRun [] (brokenRunRequest "x") {}
  cases hout : (brokenRun.report [] (brokenRunRequest "/") {}).1 with
  | error e =>
      obtain ⟨files, hsearch⟩ := exists_testFiles_brokenRun
      rcases fails.1 ⟨e, hout⟩ with ⟨e, he⟩ | hunwritable
      · cases hsearch.symm.trans he
      · obtain ⟨e, he⟩ := hunwritable []
        cases (write_brokenRun []).symm.trans he
  | ok r =>
      obtain ⟨suites, results, hload, hresults, hread, -⟩ := written r hout
      obtain rfl := unusable_brokenRun hresults
      have missing : Id.run (testFiles (brokenRun.view []) "x" []) = .error (.rootNotFound "x") := by
        have place : brokenRun.locate [] "x" = .ok (.vacant ["x"]) := locate_of_vacant rfl (by decide) rfl
        rw [Go.Discovery.run_testFiles, Go.Discovery.run_findModule, resolve, place]
        rfl
      refine ⟨r, suites, rfl, hload, hread, elsewhere _ ?_, _, search _ missing⟩
      rintro ⟨p, hp, heq⟩
      obtain rfl := Except.ok.inj (locate_output_brokenRun.symm.trans hp)
      exact absurd heq (by decide)

/-- A second report changes nothing, although the first one lies in the directory that is searched. -/
theorem report_again_brokenRun :
    brokenRun.Proper ∧ brokenRun.LeadsTo [] "TESTS.md" ["TESTS.md"] ∧
    (¬ ∃ stem, ["TESTS.md"].getLast? = some (stem ++ "_test.go")) ∧
    ¬ brokenRun.LeadsTo [] "junit.xml" ["TESTS.md"] ∧
    (∀ directory, ¬ brokenRun.LeadsTo directory "go.mod" ["TESTS.md"]) ∧
    ∃ r fs', brokenRun.report [] (brokenRunRequest "/") {} = (.ok r, fs') ∧
      fs'.report [] (brokenRunRequest "/") {} = (.ok r, fs') := by
  have output : brokenRun.LeadsTo [] "TESTS.md" ["TESTS.md"] := ⟨_, locate_output_brokenRun, rfl⟩
  have noTest : ¬ ∃ stem, ["TESTS.md"].getLast? = some (stem ++ "_test.go") := by
    rintro ⟨stem, h⟩
    exact absurd (Go.Discovery.isTestFile_iff.2 ⟨stem, Option.some.inj h⟩) (by decide)
  have noResults := not_leadsTo_output_brokenRun (by decide : Path.IsName "junit.xml") rfl
  have noModule : ∀ directory, ¬ brokenRun.LeadsTo directory "go.mod" ["TESTS.md"] := by
    intro directory h
    obtain ⟨entries, hdir⟩ := exists_directory_of_leadsTo Go.Discovery.isName_fileName h
    obtain rfl := eq_nil_of_node?_brokenRun hdir
    exact not_leadsTo_output_brokenRun Go.Discovery.isName_fileName rfl h
  obtain ⟨r, fs', hreport⟩ : ∃ r fs', brokenRun.report [] (brokenRunRequest "/") {} = (.ok r, fs') := by
    obtain ⟨files, hsearch⟩ := exists_testFiles_brokenRun
    have search : Id.run (testFiles (brokenRun.view []) (brokenRunRequest "/").source
        ({} : Settings).excludeDirs) = _ := hsearch
    have output : (brokenRunRequest "/").output = "TESTS.md" := rfl
    rw [report_eq, Go.Discovery.loadSuites_eq_ok search]
    simp only [output, write_brokenRun]
    exact ⟨_, _, rfl⟩
  exact ⟨proper_brokenRun, output, noTest, noResults, noModule, r, fs', hreport,
    report_again proper_brokenRun output noTest noResults noModule hreport⟩

end FileSystem

end SuiteReport
