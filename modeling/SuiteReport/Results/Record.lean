import SuiteReport.Suite.Basic
import SuiteReport.Text.Blank
/-!
# Results of test cases

A record says how one test case ended. Records are kept under keys that join the package of a test and its
machine name, so a unit of a suite finds its record by its own key. A later record replaces an earlier one
with the same key.

## Main definitions

* `resultKey`: the key of a test.
* `Results.insert`, `Results.get?`: recording and looking up.
* `Results.record?`, `Results.status`: the record of a unit, and how the unit ended.
-/

namespace SuiteReport

/-- How a test case ended. -/
inductive Status where
  /-- It passed. -/
  | pass
  /-- It failed, or it could not be carried out. -/
  | fail
  /-- It was skipped. -/
  | skip
  /-- There is no record of it. -/
  | notRun
deriving DecidableEq, Repr, Inhabited

/-- The words for a status in tables. -/
def Status.label : Status → String
  | .pass => "PASS"
  | .fail => "FAIL"
  | .skip => "SKIP"
  | .notRun => "NOT RUN"

/-- The sign for a status in tables. -/
def Status.icon : Status → String
  | .pass => "✅"
  | .fail => "❌"
  | .skip => "⏭️"
  | .notRun => "⚪"

/-- The recorded result of one test case. -/
structure Record where
  /-- How the case ended. -/
  status : Status
  /-- The time it took, with its unit. -/
  duration : Option String
  /-- Why it failed or was skipped. -/
  message : Option String
deriving DecidableEq, Repr

/-- What separates the package from the test in a key. -/
def keySeparator : String := "::"

/-- The key of a test: package and machine name, each without white space at its ends. -/
def resultKey (package test : String) : String :=
  Blank.trim package ++ keySeparator ++ Blank.trim test

/-- Records under their keys. -/
structure Results where
  /-- The keys and their records, the latest first; no key occurs twice. -/
  entries : List (String × Record)
deriving Repr

namespace Results

/-- No results. -/
def empty : Results := ⟨[]⟩

/-- Records a result under a key, in place of an earlier one. -/
def insert (r : Results) (key : String) (record : Record) : Results :=
  ⟨(key, record) :: r.entries.filter (·.1 != key)⟩

/-- The record under a key. -/
def get? (r : Results) (key : String) : Option Record := r.entries.lookup key

/-- The number of keys. -/
def size (r : Results) : Nat := r.entries.length

/-- The record of a unit of the given package, if there is one. -/
def record? (r : Results) (package : String) (u : TestUnit) : Option Record :=
  r.get? (resultKey package u.machineName)

/-- The status of a unit of the given package: that of its record, or `notRun` without one. -/
def status (r : Results) (package : String) (u : TestUnit) : Status :=
  ((r.record? package u).map Record.status).getD .notRun

end Results

end SuiteReport
