import SuiteReport.Report.Entry
/-!
# Reports as Markdown

Each suite has a section with a table, and each unit a row in it, parents before their children. The first
column shows the names on the way to the unit. What comes from comments and failure messages is made fit for
one cell of a table.

## Main definitions

* `Markdown.cell`: a text made fit for a cell.
* `Markdown.rows`: the rows of a unit and of everything below it.
* `Markdown.report`: the report.
-/

namespace SuiteReport.Markdown

/-- A character made fit for a cell of a table: bars are escaped and line feeds become blanks. -/
def cellChar (c : Char) : List Char :=
  if c = '|' then ['\\', '|'] else if c = '\n' then [' '] else [c]

/-- A text made fit for a cell of a table. -/
def cell (s : String) : String := String.ofList (s.toList.flatMap cellChar)

/-- What separates the names on the way to a unit. -/
def pathSeparator : String := " → "

/-- A row of a table. -/
def row (path : String) (status : Status) (duration : Option String) (summary failure : String) : String :=
  "| " ++ path ++ " | " ++ status.icon ++ " " ++ status.label ++ " | " ++ duration.getD "-" ++ " | "
    ++ summary ++ " | " ++ failure ++ " |\n"

mutual

/-- The rows of a unit and of everything below it, where `path` turns a name into the names on the way to
it. -/
def rows (results : Results) (limit : Nat) (package : String) (path : String → String) : TestUnit → String
  | ⟨name, machineName, comment, subtests⟩ =>
    let record? := results.get? (resultKey package machineName)
    row (path name) ((record?.map Record.status).getD .notRun) (record?.bind Record.duration)
        (cell (CommentText.summary comment)) (cell ((failureText limit record?).getD ""))
      ++ rowsAll results limit package (fun inner => path name ++ pathSeparator ++ inner) subtests

/-- The rows of several units. -/
def rowsAll (results : Results) (limit : Nat) (package : String) (path : String → String) :
    List TestUnit → String
  | [] => ""
  | u :: us => rows results limit package path u ++ rowsAll results limit package path us

end

/-- The two lines that a table begins with. -/
def tableHead : String :=
  "| Test Path | Status | Duration | Description | Failure |\n"
    ++ "|-----------|--------|----------|-------------|----------|\n"

/-- The paragraph that describes a suite, if its comment has a text. -/
def description (s : TestSuite) : String :=
  match s.description.map CommentText.body with
  | none | some "" => ""
  | some body => "**Suite Description:**\n\n" ++ body ++ "\n\n"

/-- The section of a suite. -/
def suiteSection (results : Results) (limit : Nat) (s : TestSuite) : String :=
  "## Test Suite: " ++ s.name ++ "\n\n" ++ description s ++ tableHead
    ++ rowsAll results limit s.package id s.units ++ "\n"

/-- The report on suites, which shows at most `limit` characters of a failure. -/
def report (suites : List TestSuite) (results : Results) (limit : Nat) : String :=
  "# Test Documentation Report\n\n" ++ String.join (suites.map (suiteSection results limit))

end SuiteReport.Markdown
