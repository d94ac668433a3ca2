import SuiteReport.Command.Arguments
import SuiteReport.Command.Suites
import SuiteReport.Files.System
import SuiteReport.Report.Markdown
import SuiteReport.Report.Response
import SuiteReport.Suite.Outline
/-!
# Commands

What the commands do. A command looks at the file system and comes to what it will print and write; whoever
runs it does the writing. On a file system that is a value the whole run is a function.

## Main definitions

* `prepareReport`: the report that a request asks for.
* `Effect`, `effectOf`: what a command comes to.
* `FileSystem.report`, `FileSystem.run`: runs on a file system that is a value.
-/

namespace SuiteReport

variable {m : Type → Type} [Monad m]

/-! ### Reports -/

/-- A report that is ready to be written. -/
structure PreparedReport where
  /-- Where it is written to. -/
  output : String
  /-- Its text. -/
  document : String
  /-- The number of suites. -/
  suites : Nat
  /-- The number of units. -/
  units : Nat
  /-- The number of results. -/
  results : Nat
deriving DecidableEq, Repr

/-- The text of a report. -/
def reportDocument (format : ReportFormat) (suites : List TestSuite) (results : Results) (limit : Nat) :
    String :=
  match format with
  | .markdown => Markdown.report suites results limit
  | .json => (Response.report suites results limit).pretty

/-- The report that a request asks for. -/
def prepareReport (view : FileView m) (request : ReportRequest) (settings : Settings) :
    m (Except Failure PreparedReport) := do
  match ← loadSuites view request.source settings with
  | .error e => return .error e
  | .ok suites =>
    let results ← loadResults view request.junit
    let limit := request.failSnippet.getD settings.failSnippet
    return .ok {
      output := request.output
      document := reportDocument request.format suites results limit
      suites := suites.length
      units := TestSuite.countAll suites
      results := results.size }

/-- What is said about a report that has been written. -/
def PreparedReport.summary (r : PreparedReport) : String :=
  "wrote " ++ r.output ++ " (" ++ decimal r.suites ++ " suites, " ++ decimal r.units ++ " tests, "
    ++ decimal r.results ++ " results)\n"

/-! ### Commands -/

/-- What a command comes to. -/
structure Effect where
  /-- What it prints, once it has written what it has to write. -/
  printed : String
  /-- The file that it writes, with its text. -/
  written : Option (String × String)
deriving DecidableEq, Repr

/-- The text of a list. -/
def listDocument (format : ListFormat) (suites : List TestSuite) : String :=
  match format with
  | .text => outline suites
  | .json => (Response.list suites).pretty

/-- What a command comes to, perhaps with settings from a given file. -/
def effectOf (view : FileView m) (given : Option String) : Command → m (Except Failure Effect)
  | .report request => do
    match ← loadSettings view request.source given with
    | .error e => return .error e
    | .ok settings =>
      match ← prepareReport view request settings with
      | .error e => return .error e
      | .ok r => return .ok ⟨r.summary, some (r.output, r.document)⟩
  | .list request => do
    match ← loadSettings view request.source given with
    | .error e => return .error e
    | .ok settings =>
      match ← loadSuites view request.source settings with
      | .error e => return .error e
      | .ok suites => return .ok ⟨listDocument request.format suites, none⟩

/-! ### Outcomes -/

/-- How the program ends. -/
structure Outcome where
  /-- The code that it ends with. -/
  exitCode : Nat
  /-- What it prints. -/
  stdout : String
  /-- What it prints about errors. -/
  stderr : String
deriving DecidableEq, Repr

namespace Outcome

/-- The outcome of a command that did its work. -/
def success (printed : String) : Outcome := ⟨0, printed, ""⟩

/-- The outcome of a command that failed. -/
def ofFailure (f : Failure) : Outcome := ⟨f.exitCode, "", (Response.failure f).pretty⟩

/-- The outcome of a wrong command line. -/
def ofUsageError (e : Arguments.UsageError) : Outcome := ⟨2, "", "error: " ++ e.message ++ "\n"⟩

/-- What the program says about its version. -/
def versionText : String := "testdoc 0.1.0\n"

/-- What the program says about its use. -/
def helpText : String :=
  "Documentation reports for Go test suites\n\n"
    ++ "Usage: testdoc report --junit <FILE> [--source <DIR>] [--output <FILE>] [--format markdown|json]\n"
    ++ "                      [--fail-snippet <N>]\n"
    ++ "       testdoc list [--source <DIR>] [--format text|json]\n\n"
    ++ "Options of both: --config <FILE>, --log-level trace|debug|info|warn|error\n"

end Outcome

/-- The failure of a report that cannot be written. -/
def outputFailure (path : String) (e : FileError) : Failure := .output path e.message

namespace FileSystem

/-- Writes the report that a request asks for, seen from a directory. -/
def report (fs : FileSystem) (base : List String) (request : ReportRequest) (settings : Settings) :
    Except Failure PreparedReport × FileSystem :=
  match prepareReport (m := Id) (fs.view base) request settings with
  | .error e => (.error e, fs)
  | .ok r =>
    match fs.write base r.output (Bytes.ofString r.document) with
    | .error e => (.error (outputFailure r.output e), fs)
    | .ok fs => (.ok r, fs)

/-- Carries out what a command comes to. -/
def carryOut (fs : FileSystem) (base : List String) (effect : Effect) : Outcome × FileSystem :=
  match effect.written with
  | none => (.success effect.printed, fs)
  | some (path, text) =>
    match fs.write base path (Bytes.ofString text) with
    | .error e => (.ofFailure (outputFailure path e), fs)
    | .ok fs => (.success effect.printed, fs)

/-- Runs the program in a directory. -/
def run (fs : FileSystem) (base : List String) (arguments : List String) : Outcome × FileSystem :=
  match Arguments.parse arguments with
  | .error e => (.ofUsageError e, fs)
  | .ok .version => (.success Outcome.versionText, fs)
  | .ok .help => (.success Outcome.helpText, fs)
  | .ok (.command c given) =>
    match effectOf (m := Id) (fs.view base) given c with
    | .error e => (.ofFailure e, fs)
    | .ok effect => fs.carryOut base effect

end FileSystem

end SuiteReport
