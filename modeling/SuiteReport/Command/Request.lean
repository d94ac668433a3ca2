/-!
# Requests

What the program can be asked to do.

## Main definitions

* `ReportRequest`, `ListRequest`: the requests of the two commands.
* `Request`: a request together with what holds for both commands.
-/

namespace SuiteReport

/-- The forms of a report. -/
inductive ReportFormat where
  | markdown | json
deriving DecidableEq, Repr

/-- The forms of a list. -/
inductive ListFormat where
  | text | json
deriving DecidableEq, Repr

/-- The request to write a report. -/
structure ReportRequest where
  /-- The directory to search. -/
  source : String
  /-- The results of the test run. -/
  junit : String
  /-- Where the report is written to. -/
  output : String
  /-- The form of the report. -/
  format : ReportFormat
  /-- How many characters of a failure are shown, if not as many as the settings say. -/
  failSnippet : Option Nat
deriving DecidableEq, Repr

/-- The request to list the units. -/
structure ListRequest where
  /-- The directory to search. -/
  source : String
  /-- The form of the list. -/
  format : ListFormat
deriving DecidableEq, Repr

/-- One of the commands. -/
inductive Command where
  | report (r : ReportRequest)
  | list (r : ListRequest)
deriving DecidableEq, Repr

/-- What the program is asked to do. -/
inductive Request where
  /-- To carry out a command, perhaps with settings from a given file. -/
  | command (c : Command) (settings : Option String)
  /-- To say which version it is. -/
  | version
  /-- To say how it is used. -/
  | help
deriving DecidableEq, Repr

end SuiteReport
