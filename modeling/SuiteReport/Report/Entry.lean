import SuiteReport.Report.CommentText
import SuiteReport.Results.Record
import SuiteReport.Text.Truncation
/-!
# Report entries

A report shows the units of a suite joined with their results: how each one ended, how long it took, and the
beginning of what went wrong.

## Main definitions

* `failureText`: what a report shows of a failure.
* `UnitEntry`, `SuiteEntry`: units and suites joined with their results.
-/

namespace SuiteReport

/-- What a report shows of a failure: at most so many characters of the message, and nothing unless the case
failed with a message. -/
def failureText (limit : Nat) : Option Record → Option String
  | some ⟨.fail, _, some message⟩ => some (truncate message limit)
  | _ => none

/-- A unit joined with its result. -/
structure UnitEntry where
  /-- The readable name. -/
  name : String
  /-- The path under which test runners report the unit. -/
  machineName : String
  /-- The comment block that documents the unit. -/
  comment : String
  /-- The line of the comment that describes it best. -/
  summary : String
  /-- How the unit ended. -/
  status : Status
  /-- The time it took. -/
  duration : Option String
  /-- What went wrong, if there is something to show. -/
  failure : Option String
  /-- The sub-tests. -/
  subtests : List UnitEntry
deriving Repr, Inhabited

/-- A suite joined with its results. -/
structure SuiteEntry where
  /-- The package. -/
  package : String
  /-- The base name of the file. -/
  name : String
  /-- The comment of the package clause. -/
  description : Option String
  /-- The test functions. -/
  units : List UnitEntry
deriving Repr, Inhabited

mutual

/-- The entry of a unit of the given package. -/
def UnitEntry.ofUnit (results : Results) (limit : Nat) (package : String) : TestUnit → UnitEntry
  | ⟨name, machineName, comment, subtests⟩ =>
    let record? := results.get? (resultKey package machineName)
    { name
      machineName
      comment
      summary := CommentText.summary comment
      status := (record?.map Record.status).getD .notRun
      duration := record?.bind Record.duration
      failure := (failureText limit record?).filter (· != "")
      subtests := UnitEntry.ofUnits results limit package subtests }

/-- The entries of several units of the given package. -/
def UnitEntry.ofUnits (results : Results) (limit : Nat) (package : String) : List TestUnit → List UnitEntry
  | [] => []
  | u :: us => UnitEntry.ofUnit results limit package u :: UnitEntry.ofUnits results limit package us

end

/-- The entry of a suite. -/
def SuiteEntry.ofSuite (results : Results) (limit : Nat) (s : TestSuite) : SuiteEntry :=
  { package := s.package
    name := s.name
    description := s.description
    units := UnitEntry.ofUnits results limit s.package s.units }

end SuiteReport
