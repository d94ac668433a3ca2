import SuiteReport.Command.Run
/-!
# What a report looks up

A report looks for the results of a suite under the keys of its package and of the machine names of its units. All
else that it says comes from the suite, so results that agree on the keys make the same report.

## Main definitions

* `TestSuite.keys`: the keys of the units of a suite.

## Main results

* `reportDocument_congr`: a report depends on the results at the keys of its suites.
-/

namespace SuiteReport

variable {results other : Results} {package : String}

/-- The keys under which the results of the units of a suite are looked for. -/
def TestSuite.keys (s : TestSuite) : List String :=
  (TestUnit.preorderAll s.units).map fun u => resultKey s.package u.machineName

/-! ### Entries -/

mutual

/-- The entry of a unit depends on the results of the unit and of everything below it. -/
theorem ofUnit_congr (limit : Nat) : ∀ u : TestUnit,
    (∀ v ∈ u.preorder, results.record? package v = other.record? package v) →
      UnitEntry.ofUnit results limit package u = UnitEntry.ofUnit other limit package u
  | ⟨name, machineName, comment, subtests⟩, h => by
    rw [TestUnit.preorder, List.forall_mem_cons] at h
    have own : results.get? (resultKey package machineName) = other.get? (resultKey package machineName) := h.1
    rw [UnitEntry.ofUnit, UnitEntry.ofUnit, own, ofUnits_congr limit subtests h.2]

/-- The entries of units depend on the results of the units and of everything below them. -/
theorem ofUnits_congr (limit : Nat) : ∀ us : List TestUnit,
    (∀ v ∈ TestUnit.preorderAll us, results.record? package v = other.record? package v) →
      UnitEntry.ofUnits results limit package us = UnitEntry.ofUnits other limit package us
  | [], _ => rfl
  | u :: us, h => by
    rw [TestUnit.preorderAll, List.forall_mem_append] at h
    rw [UnitEntry.ofUnits, UnitEntry.ofUnits, ofUnit_congr limit u h.1, ofUnits_congr limit us h.2]

end

/-! ### Tables -/

mutual

/-- The rows of a unit depend on the results of the unit and of everything below it. -/
theorem rows_congr (limit : Nat) (path : String → String) : ∀ u : TestUnit,
    (∀ v ∈ u.preorder, results.record? package v = other.record? package v) →
      Markdown.rows results limit package path u = Markdown.rows other limit package path u
  | ⟨name, machineName, comment, subtests⟩, h => by
    rw [TestUnit.preorder, List.forall_mem_cons] at h
    have own : results.get? (resultKey package machineName) = other.get? (resultKey package machineName) := h.1
    rw [Markdown.rows, Markdown.rows, own, rowsAll_congr limit _ subtests h.2]

/-- The rows of units depend on the results of the units and of everything below them. -/
theorem rowsAll_congr (limit : Nat) (path : String → String) : ∀ us : List TestUnit,
    (∀ v ∈ TestUnit.preorderAll us, results.record? package v = other.record? package v) →
      Markdown.rowsAll results limit package path us = Markdown.rowsAll other limit package path us
  | [], _ => rfl
  | u :: us, h => by
    rw [TestUnit.preorderAll, List.forall_mem_append] at h
    rw [Markdown.rowsAll, Markdown.rowsAll, rows_congr limit path u h.1, rowsAll_congr limit path us h.2]

end

/-! ### Reports -/

/-- **A report depends on the results at the keys of its suites.** -/
theorem reportDocument_congr (format : ReportFormat) {suites : List TestSuite} (limit : Nat)
    (h : ∀ key ∈ suites.flatMap TestSuite.keys, results.get? key = other.get? key) :
    reportDocument format suites results limit = reportDocument format suites other limit := by
  have agree : ∀ s ∈ suites, ∀ u ∈ TestUnit.preorderAll s.units,
      results.record? s.package u = other.record? s.package u := fun s hs u hu =>
    h _ (List.mem_flatMap.2 ⟨s, hs, List.mem_map.2 ⟨u, hu, rfl⟩⟩)
  cases format with
  | markdown =>
      have sections : suites.map (Markdown.suiteSection results limit) =
          suites.map (Markdown.suiteSection other limit) :=
        List.map_congr_left fun s hs => by
          unfold Markdown.suiteSection
          rw [rowsAll_congr limit id s.units (agree s hs)]
      rw [reportDocument, reportDocument]
      unfold Markdown.report
      rw [sections]
  | json =>
      have entries : (suites.map fun s => Response.ofSuiteEntry (SuiteEntry.ofSuite results limit s)) =
          suites.map fun s => Response.ofSuiteEntry (SuiteEntry.ofSuite other limit s) :=
        List.map_congr_left fun s hs => by
          rw [SuiteEntry.ofSuite, SuiteEntry.ofSuite, ofUnits_congr limit s.units (agree s hs)]
      simp only [reportDocument, Response.report, entries]

end SuiteReport
