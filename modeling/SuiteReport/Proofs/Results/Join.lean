import SuiteReport.Proofs.Results.Acceptance
import SuiteReport.Proofs.Results.Unfinished
/-!
# Units and their test cases

A unit finds its result by a key that joins its package and its machine name, and every test case of a report that
has its end tag is recorded under such a key. This module proves which test case a unit finds: the last closed one of
its own package with its own name, where white space at the ends of packages and names does not count. The key alone
would not tell, since the text that separates its halves may occur in them; it does if the packages hold no colon.

A report may end early, and then a test case may still be open where it ends. Such a test case is not recorded, and
its unit counts as not run, or has the record of an earlier test case. So results are joined to the test cases that
stand in a report for exactly the units for which the test case that is open makes no difference.

## Main definitions

* `TestCase.IsFor`: whether a test case is one of a unit, and `lastFor?`, the last such one.
* `closedCases`, `openCases`, `allCases`: the test cases in a report with and without their end tags.
* `Joined`: whether a unit has the result that some test cases give it.

## Main results

* `resultKey_inj`: keys of packages without colons tell packages and names.
* `record?_eq_lastClosedCase`: the result of a unit is that of its last closed test case, and when this is its result
  by all test cases.
-/

namespace SuiteReport.JUnit

open Markup Markup.Item

/-! ### Keys -/

/-- Texts around the first occurrence of a character are told by the whole text. -/
theorem append_cons_inj {sep : Char} {p q x y : List Char} (hp : sep ∉ p) (hq : sep ∉ q) :
    p ++ sep :: x = q ++ sep :: y ↔ p = q ∧ x = y := by
  constructor
  · intro h
    have first := congrArg (List.idxOf sep) h
    simp only [List.idxOf_append_of_notMem hp, List.idxOf_append_of_notMem hq, List.idxOf_cons_self,
      Nat.add_zero] at first
    obtain ⟨hpq, hxy⟩ := List.append_inj h first
    exact ⟨hpq, (List.cons.inj hxy).2⟩
  · rintro ⟨rfl, rfl⟩
    rfl

/-- **Keys of packages without colons** tell packages and names, apart from white space at their ends. -/
theorem resultKey_inj {package package' test test' : String} (h : ':' ∉ (Blank.trim package).toList)
    (h' : ':' ∉ (Blank.trim package').toList) :
    resultKey package test = resultKey package' test' ↔
      Blank.trim package = Blank.trim package' ∧ Blank.trim test = Blank.trim test' := by
  have key (package test : String) : (resultKey package test).toList =
      (Blank.trim package).toList ++ ':' :: ':' :: (Blank.trim test).toList := by
    simp [resultKey, keySeparator]
  rw [← String.toList_inj, key, key, append_cons_inj h h', List.cons_inj_right, String.toList_inj,
    String.toList_inj]

/-! ### Units and test cases -/

/-- Whether a test case is one of a unit: it has the package and the machine name of the unit, apart from white
space at their ends. -/
def TestCase.IsFor (c : TestCase) (package : String) (u : TestUnit) : Prop :=
  Blank.trim c.package = Blank.trim package ∧ Blank.trim (valueOf c.tag "name") = Blank.trim u.machineName

instance (c : TestCase) (package : String) (u : TestUnit) : Decidable (c.IsFor package u) :=
  inferInstanceAs (Decidable (_ ∧ _))

/-- A test case that was read has been run. -/
theorem TestCase.status_reading (c : TestCase) : c.reading.status ≠ .notRun := by
  rw [reading, OpenCase.record, OpenCase.status]
  split
  · exact Status.noConfusion
  · split <;> exact Status.noConfusion

/-- The last of some test cases that is one of a unit. -/
def lastFor? (cases : List TestCase) (package : String) (u : TestUnit) : Option TestCase :=
  (cases.filter (·.IsFor package u)).getLast?

/-- Later test cases of a unit take precedence. -/
theorem lastFor?_append (cases later : List TestCase) (package : String) (u : TestUnit) :
    lastFor? (cases ++ later) package u = (lastFor? later package u).or (lastFor? cases package u) := by
  rw [lastFor?, List.filter_append, List.getLast?_append, lastFor?, lastFor?]

theorem lastFor?_eq_none_iff {cases : List TestCase} {package : String} {u : TestUnit} :
    lastFor? cases package u = none ↔ ∀ c ∈ cases, ¬ c.IsFor package u := by
  rw [lastFor?, List.getLast?_eq_none_iff, List.filter_eq_nil_iff]
  simp only [decide_eq_true_eq]

/-- **A unit has the result that some test cases give it.** -/
structure Joined (results : Results) (cases : List TestCase) (package : String) (u : TestUnit) : Prop where
  /-- The unit finds the record of the last of them that is one of it. -/
  record : results.record? package u = (lastFor? cases package u).map TestCase.reading
  /-- It has no record exactly if none of them is. -/
  absent : results.record? package u = none ↔ ∀ c ∈ cases, ¬ c.IsFor package u
  /-- It was not run exactly if none of them is. -/
  notRun : results.status package u = .notRun ↔ ∀ c ∈ cases, ¬ c.IsFor package u

/-- The record of a unit tells whether it has one and whether it was run. -/
theorem joined_iff {results : Results} {cases : List TestCase} {package : String} {u : TestUnit} :
    Joined results cases package u ↔ results.record? package u = (lastFor? cases package u).map TestCase.reading := by
  constructor
  · exact Joined.record
  · intro found
    have absent : results.record? package u = none ↔ ∀ c ∈ cases, ¬ c.IsFor package u := by
      rw [found, Option.map_eq_none_iff, lastFor?_eq_none_iff]
    refine ⟨found, absent, ?_⟩
    rw [← absent, Results.status]
    cases hrecord : results.record? package u with
    | none => simp
    | some record =>
        obtain ⟨c, -, rfl⟩ := Option.map_eq_some_iff.1 (found.symm.trans hrecord)
        simp [c.status_reading]

/-! ### Test cases with and without end tags -/

/-- The test cases in a draft that have their end tags. -/
def closedCases (d : Draft) : List TestCase := testCases (d.placed [])

/-- The test cases in a draft that are still open at its end, with what stands behind their start tags. -/
def openCases (d : Draft) : List TestCase := testCases (d.openElements [])

/-- All test cases in a draft, with their end tags or without, in the order of the document. -/
def allCases (d : Draft) : List TestCase := testCases (placedIn [] d.completed)

/-- Behind the start tag of an open test case there is no closed one, so all closed test cases come first. The induction
goes inwards through the elements that are not closed. -/
theorem testCases_completed {around : List Tag} {d : Draft} (apart : ∀ p ∈ d.placed around, CaseApart p) :
    testCases (placedIn around d.completed) = testCases (d.placed around) ++ testCases (d.openElements around) := by
  induction d generalizing around with
  | closed items => exact (List.append_nil _).symm
  | unclosed before tag inside ih =>
      obtain ⟨-, hinside⟩ := List.forall_mem_append.1 apart
      have swap : testCases [⟨around, .element tag inside.completed⟩] ++ testCases (inside.placed (tag :: around)) =
          testCases (inside.placed (tag :: around)) ++ testCases [⟨around, .element tag inside.completed⟩] := by
        by_cases hcase : isCase tag = true
        · have houter : ∀ p ∈ inside.placed (tag :: around), tag ∈ p.around :=
            fun _ => Draft.mem_around_of_mem_placed List.mem_cons_self
          rw [testCases_eq_nil (noCase_of_caseApart hcase houter hinside), List.append_nil, List.nil_append]
        · have hself : NoCase ⟨around, .element tag inside.completed⟩ :=
            noCase_of_tag?_eq_some rfl (Bool.eq_false_iff.2 hcase)
          rw [testCases_eq_nil (List.forall_mem_singleton.2 hself), List.append_nil, List.nil_append]
      calc testCases (placedIn around (before ++ [.element tag inside.completed]))
          = testCases (placedIn around before) ++ (testCases [⟨around, .element tag inside.completed⟩] ++
              testCases (placedIn (tag :: around) inside.completed)) := by
            rw [placedIn_append, testCases_append, placedIn, placedInside, placedIn, List.append_nil, testCases_cons]
        _ = testCases (placedIn around before) ++ (testCases (inside.placed (tag :: around)) ++
              (testCases [⟨around, .element tag inside.completed⟩] ++
                testCases (inside.openElements (tag :: around)))) := by
            rw [ih hinside, ← List.append_assoc (testCases [_]), swap, List.append_assoc]
        _ = testCases (placedIn around before ++ inside.placed (tag :: around)) ++
              testCases (⟨around, .element tag inside.completed⟩ :: inside.openElements (tag :: around)) := by
            rw [testCases_append, testCases_cons _ (inside.openElements _), List.append_assoc]

/-- The closed test cases come before the open one. -/
theorem allCases_eq_append {d : Draft} (apart : ∀ p ∈ d.placed [], CaseApart p) :
    allCases d = closedCases d ++ openCases d :=
  testCases_completed apart

/-- Reading a report joins the results of its closed test cases to the units. -/
theorem joined_closedCases {d : Draft} (hcolons : ∀ c ∈ closedCases d, ':' ∉ (Blank.trim c.package).toList)
    {package : String} (hcolon : ':' ∉ (Blank.trim package).toList) (u : TestUnit) :
    Joined (Results.empty.insertAll (readings (d.placed []))) (closedCases d) package u := by
  have same : (closedCases d).filter
        ((fun entry => entry.1 == resultKey package u.machineName) ∘ fun c => (c.key, c.reading)) =
      (closedCases d).filter (·.IsFor package u) := by
    refine List.filter_congr ?_
    intro c hc
    change (c.key == resultKey package u.machineName) = decide (c.IsFor package u)
    rw [TestCase.key, beq_eq_decide]
    exact decide_eq_decide.2 (resultKey_inj (hcolons c hc) hcolon)
  have hnone : Results.empty.get? (resultKey package u.machineName) = none := rfl
  have hreadings : readings (d.placed []) = (closedCases d).map fun c => (c.key, c.reading) := rfl
  rw [joined_iff, Results.record?, Results.get?_insertAll, hnone, Option.or_none, hreadings, ← List.map_reverse,
    List.find?_map, Option.map_map, ← List.getLast?_filter, same]
  rfl

/-- **Units find their own closed test cases.** A report that can be read is a draft. Say that no closed test case in
it stands in another, and that none of their packages holds a colon but at its ends. Then a unit of a package without
such a colon finds the record of the last closed test case that has its package and its machine name, where white space
at the ends does not count; and it has no record and was not run exactly if there is no such test case.

A test case that is still open where the report ends does not count, so this is the result of the unit by all test cases
of the report exactly if no open test case is one of the unit, as in every report whose elements have their end tags, or
if the last open one reads like the last closed one. The record is the one that the tree gives if no failure inside the
test case stands in another. In particular the keys of packages without colons tell packages and names. -/
theorem record?_eq_lastClosedCase {document : String} {results : Results} (h : parse document = .ok results) :
    (∃ d, Draft.ofDocument? document = some d ∧
      ((∀ p ∈ d.placed [], CaseApart p) → (∀ c ∈ closedCases d, ':' ∉ (Blank.trim c.package).toList) →
        ∀ (package : String) (u : TestUnit), ':' ∉ (Blank.trim package).toList →
          Joined results (closedCases d) package u ∧
            (Joined results (allCases d) package u ↔
              ∀ c ∈ lastFor? (openCases d) package u,
                (lastFor? (closedCases d) package u).map TestCase.reading = some c.reading)) ∧
      ∀ c ∈ allCases d, (∀ p ∈ c.inside, FailureApart p) → c.reading = c.record) ∧
    ∀ package test package' test' : String, ':' ∉ (Blank.trim package).toList →
      ':' ∉ (Blank.trim package').toList → resultKey package test = resultKey package' test' →
      Blank.trim package = Blank.trim package' ∧ Blank.trim test = Blank.trim test' := by
  obtain ⟨d, hd, hresults⟩ := results_of_parse h
  refine ⟨⟨d, hd, ?_, fun c hc => c.reading_eq_record (isCase_of_mem_testCases hc)⟩,
    fun _ _ _ _ hp hp' => (resultKey_inj hp hp').1⟩
  intro apart hcolons package u hcolon
  have closed : Joined results (closedCases d) package u := by
    rw [hresults apart]
    exact joined_closedCases hcolons hcolon u
  refine ⟨closed, ?_⟩
  rw [joined_iff, closed.record, allCases_eq_append apart, lastFor?_append]
  -- an open test case of the unit would be its last one
  cases lastFor? (openCases d) package u with
  | none => simp
  | some c => simp

/-! ### A report with a test case that is still open -/

/-- A report that ends early. It has two closed test cases for one unit, and one for another that is still open. -/
def repeatedCase : String :=
  "<testsuites><testcase classname=\"p\" name=\"T\"/><testcase classname=\" p\" name=\"T\">" ++
    "<failure><error message=\"m\"/></failure></testcase>" ++
    "<testcase classname=\"p\" name=\"U\"><failure message=\"n\"/>"

/-- The report as a draft. -/
def repeatedCaseDraft : Draft :=
  .unclosed [] (tagOf "testsuites" "")
    (.unclosed
      [.empty (tagOf "testcase" " classname=\"p\" name=\"T\""),
        .element (tagOf "testcase" " classname=\" p\" name=\"T\"")
          [.element (tagOf "failure" "") [.empty (tagOf "error" " message=\"m\"")]]]
      (tagOf "testcase" " classname=\"p\" name=\"U\"") (.closed [.empty (tagOf "failure" " message=\"n\"")]))

/-- The first unit finds the second of its two test cases. The other was not run, although its test case failed. -/
theorem record?_eq_lastClosedCase_repeatedCase :
    ∃ results, parse repeatedCase = .ok results ∧ Draft.ofDocument? repeatedCase = some repeatedCaseDraft ∧
      results.record? "p" (.root "T" "" []) = some ⟨.fail, none, some "m"⟩ ∧
      Joined results (allCases repeatedCaseDraft) "p" (.root "T" "" []) ∧
      results.status "p" (.root "U" "" []) = .notRun ∧
      ¬ Joined results (allCases repeatedCaseDraft) "p" (.root "U" "" []) := by
  have hdraft : Draft.ofDocument? repeatedCase = some repeatedCaseDraft :=
    Draft.ofDocument?_of_events (by decide +kernel)
  have hok : (parse repeatedCase).isOk = true := by
    rw [parse, Draft.ofDocument?_eq_some_iff.1 hdraft]
    decide +kernel
  cases hparse : parse repeatedCase with
  | error e =>
      rw [hparse] at hok
      cases hok
  | ok results =>
      obtain ⟨⟨d, hd, hjoin, -⟩, -⟩ := record?_eq_lastClosedCase hparse
      obtain rfl := Option.some.inj (hd.symm.trans hdraft)
      have join := hjoin (by decide +kernel) (by decide +kernel) "p"
      obtain ⟨closed, all⟩ := join (.root "T" "" []) (by decide +kernel)
      obtain ⟨closed', all'⟩ := join (.root "U" "" []) (by decide +kernel)
      refine ⟨results, rfl, hdraft, ?_, all.2 (by decide +kernel), closed'.notRun.2 (by decide +kernel), ?_⟩
      · rw [closed.record]
        decide +kernel
      · exact fun joined => absurd (all'.1 joined) (by decide +kernel)

/-- **Not every test case is joined to its unit.** There is a report that is read, in which no test case stands in
another and no package holds a colon, and in which a test case failed whose unit counts as not run: the report ends
before the end tag of the test case. -/
theorem exists_failed_case_notRun :
    ∃ document results d package u, parse document = .ok results ∧ Draft.ofDocument? document = some d ∧
      (∀ p ∈ placedIn [] d.completed, CaseApart p) ∧ (∀ c ∈ allCases d, ':' ∉ (Blank.trim c.package).toList) ∧
      ':' ∉ (Blank.trim package).toList ∧ (∃ c ∈ allCases d, c.IsFor package u ∧ c.record.status = .fail) ∧
      results.status package u = .notRun ∧ ¬ Joined results (allCases d) package u := by
  have hparse := parse_of_draft reading_cutReport.1 sound_cutReportDraft
  rw [reading_cutReport.2] at hparse
  have hcase : ∃ c ∈ allCases cutReportDraft, c.IsFor "p" (.root "B" "" []) ∧ c.record.status = .fail := by
    decide +kernel
  have hstatus : (Results.empty.insertAll (records (cutReportDraft.placed []))).status "p" (.root "B" "" []) =
      .notRun := by
    decide +kernel
  refine ⟨cutReport, _, _, "p", .root "B" "" [], hparse, ofDocument?_cutReport, by decide +kernel, by decide +kernel,
    by decide +kernel, hcase, hstatus, ?_⟩
  intro joined
  obtain ⟨c, hc, hfor, -⟩ := hcase
  exact joined.notRun.1 hstatus c hc hfor

end SuiteReport.JUnit
