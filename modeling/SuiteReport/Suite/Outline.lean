import SuiteReport.Suite.Basic
/-!
# The outline of suites

A plain listing of suites and units. Each unit is indented by two blanks more than its parent, and its
comment follows as it stands in the source.
-/

namespace SuiteReport

namespace TestUnit

mutual

/-- The entry of a unit, indented by `indent`, and the entries below it. -/
def outline (indent : String) : TestUnit → String
  | ⟨name, machineName, comment, subtests⟩ =>
    indent ++ "Test: " ++ name ++ "\n"
      ++ indent ++ "Machine Name: " ++ machineName ++ "\n"
      ++ (if comment.isEmpty then "" else indent ++ "Comments:\n" ++ comment ++ "\n")
      ++ outlineAll (indent ++ "  ") subtests

/-- The entries of several units. -/
def outlineAll (indent : String) : List TestUnit → String
  | [] => ""
  | u :: us => u.outline indent ++ outlineAll indent us

end

end TestUnit

/-- The outline of a suite: package, name, description and units. -/
def TestSuite.outline (s : TestSuite) : String :=
  "Package: " ++ s.package ++ "\n"
    ++ "Suite: " ++ s.name ++ "\n"
    ++ (match s.description with
        | none => ""
        | some description => "Comments:\n" ++ description ++ "\n")
    ++ TestUnit.outlineAll "" s.units

/-- The outlines of suites, one after the other. -/
def outline (suites : List TestSuite) : String := String.join (suites.map TestSuite.outline)

end SuiteReport
