import SuiteReport.Failure
import SuiteReport.Files.View
import SuiteReport.Go.Module
/-!
# Finding test files

The module that a directory belongs to is declared in the directory or in the nearest one above it that has
a module file. Test files are looked for below the directory, except where the tools of the language do not
look either, where the settings say not to, and in modules of their own.

## Main definitions

* `Discovery.Error`: what can go wrong.
* `Discovery.findModule`: the module that a directory belongs to.
* `Discovery.testFiles`: the test files below a directory, in the order of their relative paths.
-/

namespace SuiteReport.Go.Discovery

/-- What can go wrong while test files are looked for. -/
inductive Error where
  /-- The directory does not exist or is none. -/
  | rootNotFound (path : String)
  /-- No module file is found, or the one found does not declare a path. -/
  | moduleNotFound (path : String)
  /-- A module file cannot be read. -/
  | file (e : FileError)
deriving DecidableEq, Repr

/-- The failure of a command to which the error leads. -/
def Error.toFailure : Error → Failure
  | rootNotFound path => .rootNotFound path
  | moduleNotFound path => .moduleNotFound path
  | file e => .internal e.message

/-- What is said about an error. -/
def Error.message : Error → String
  | file e => "IO error: " ++ e.message
  | e => e.toFailure.message

variable {m : Type → Type} [Monad m]

/-! ### Modules -/

/-- The module that the nearest of several directories declares, where `root` is what was asked for. -/
def moduleOf (view : FileView m) (root : String) : List (List String) → m (Except Error GoModule)
  | [] => return .error (.moduleNotFound root)
  | directory :: further => do
    let path := Path.ofNames directory
    let file := Path.join path GoModule.fileName
    if ← view.isFile file then
      match ← view.readText file with
      | .error e => return .error (.file e)
      | .ok content =>
        match GoModule.declaredPath? content with
        | none => return .error (.moduleNotFound file)
        | some declared => return .ok ⟨path, declared⟩
    else
      moduleOf view root further

/-- The directory that a path leads to and the module that it belongs to. -/
def findModule (view : FileView m) (root : String) : m (Except Error (List String × GoModule)) := do
  match ← view.canonical? root with
  | none => return .error (.rootNotFound root)
  | some directory =>
    if ← view.isDirectory (Path.ofNames directory) then
      match ← moduleOf view root (Path.ancestors directory) with
      | .error e => return .error e
      | .ok found => return .ok (directory, found)
    else
      return .error (.rootNotFound root)

/-! ### Files -/

/-- A test file that has been found. -/
structure TestFile where
  /-- The absolute path. -/
  path : String
  /-- The path from the directory that was searched. -/
  relativePath : String
  /-- The package of the file. -/
  package : String
  /-- The base name. -/
  name : String
deriving DecidableEq, Repr

/-- What the names of test files end in. -/
def testFileSuffix : String := "_test.go"

/-- Whether a file with the name is a test file. -/
def isTestFile (name : String) : Bool := testFileSuffix.toList.isSuffixOf name.toList

/-- Directories that the tools of the language do not look into. -/
def ignoredDirectories : List String := ["testdata", "vendor"]

/-- Whether the entry is a module file, perhaps behind a link. -/
def isModuleFile : String × FileTree → Bool
  | (name, .file) | (name, .other true) => name == GoModule.fileName
  | _ => false

/-- Whether a directory with the name and the entries is left out. -/
def isSkipped (excluded : List String) (name : String) (entries : List (String × FileTree)) : Bool :=
  name.toList.head? == some '.' || name.toList.head? == some '_'
    || ignoredDirectories.contains name || excluded.contains name || entries.any isModuleFile

mutual

/-- The names that lead from a directory to the test files in one of its entries. -/
def testFilesIn (excluded : List String) (name : String) : FileTree → List (List String)
  | .file => if isTestFile name then [[name]] else []
  | .directory entries =>
    if isSkipped excluded name entries then []
    else (testFilesAmong excluded entries).map (name :: ·)
  | .other _ => []

/-- The names that lead from a directory to the test files in its entries. -/
def testFilesAmong (excluded : List String) : List (String × FileTree) → List (List String)
  | [] => []
  | (name, node) :: later => testFilesIn excluded name node ++ testFilesAmong excluded later

end

/-- The test file at the end of some names below a directory. -/
def TestFile.ofNames (found : GoModule) (directory way : List String) : TestFile :=
  { path := Path.ofNames (directory ++ way)
    relativePath := Path.joined way
    package := found.packageOf (Path.ofNames (directory ++ way.dropLast))
    name := way.getLast?.getD "" }

/-- The test files below the directory that a path leads to, in the order of their relative paths, and the
module that the directory belongs to. -/
def testFiles (view : FileView m) (root : String) (excluded : List String) :
    m (Except Error (GoModule × List TestFile)) := do
  match ← findModule view root with
  | .error e => return .error e
  | .ok (directory, found) =>
    let ways := testFilesAmong excluded (← view.entries (Path.ofNames directory))
    let files := ways.map (TestFile.ofNames found directory)
    return .ok (found, files.mergeSort fun f g => f.relativePath ≤ g.relativePath)

end SuiteReport.Go.Discovery
