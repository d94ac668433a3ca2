import SuiteReport.Go.Discovery
import SuiteReport.Go.TestFile
import SuiteReport.Results.JUnit
import SuiteReport.Settings.Document
/-!
# What commands start from

The settings of a project, the suites of its test files and the results of a test run. Settings that cannot
be understood and a directory that belongs to no module are failures. Test files that cannot be read or
parsed are passed over, and without usable results no test has one.

## Main definitions

* `loadSettings`: the settings from a given file, or from the directory that is searched.
* `loadSuites`: the suites of the test files below a directory.
* `loadResults`: the results of a test run.
-/

namespace SuiteReport

variable {m : Type → Type} [Monad m]

/-- The name of the file with the settings of a project. -/
def settingsFile : String := "testdoc.toml"

/-- The settings in a file. -/
def readSettings (view : FileView m) (path : String) : m (Except Failure Settings) := do
  match ← view.readText path with
  | .error e => return .error (.settings ("failed to read " ++ path ++ ": " ++ e.message))
  | .ok document =>
    match Settings.parse? document with
    | none => return .error (.settings (path ++ ": TOML parse error"))
    | some settings => return .ok settings

/-- The settings in the given file; without one, those in the directory to search, or the default ones. -/
def loadSettings (view : FileView m) (source : String) (given : Option String) :
    m (Except Failure Settings) := do
  match given with
  | some path => readSettings view path
  | none =>
    let path := Path.join source settingsFile
    if ← view.isFile path then readSettings view path else return .ok {}

/-- The suite of a file with the given content, if it can be parsed and has a test function. -/
def suiteOf (settings : Settings) (file : Go.Discovery.TestFile) (content : Bytes) : Option TestSuite := do
  (← Go.Source.parse? content).suite? settings file.package file.name

/-- The suites of the test files below a directory, in the order of the files. -/
def loadSuites (view : FileView m) (root : String) (settings : Settings) :
    m (Except Failure (List TestSuite)) := do
  match ← Go.Discovery.testFiles view root settings.excludeDirs with
  | .error e => return .error e.toFailure
  | .ok (_, files) =>
    let suites ← files.mapM fun file => do
      match ← view.read file.path with
      | .error _ => return none
      | .ok content => return suiteOf settings file content
    return .ok (suites.filterMap id)

/-- The results of a test run, of which there are none if they cannot be read. -/
def loadResults (view : FileView m) (path : String) : m Results := do
  match ← view.readText path with
  | .error _ => return .empty
  | .ok xml =>
    match JUnit.parse xml with
    | .error _ => return .empty
    | .ok results => return results

end SuiteReport
