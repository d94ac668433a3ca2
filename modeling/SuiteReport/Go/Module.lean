import SuiteReport.Files.Path
import SuiteReport.Text.Blank
import SuiteReport.Text.Lines
/-!
# Modules

A module is a directory with a file that declares the path of the module. Packages are identified by the
path of their module and the way to their directory inside it. The external tests of a package report under
the package that they test.

## Main definitions

* `GoModule`: a module.
* `GoModule.declaredPath?`: the path that the content of a module file declares.
* `GoModule.packageOf`: the identifier of the package in a directory.
-/

namespace SuiteReport.Go

/-- A module. -/
structure GoModule where
  /-- The directory of the module. -/
  root : String
  /-- The declared path. -/
  path : String
deriving DecidableEq, Repr

namespace GoModule

/-- The name of the file that declares a module. -/
def fileName : String := "go.mod"

/-- The line up to the first two slashes. -/
def withoutComment : List Char → List Char
  | [] => []
  | '/' :: '/' :: _ => []
  | c :: rest => c :: withoutComment rest

/-- Whether the character is a quote that may stand around a path. -/
def isQuote (c : Char) : Bool := c == '"' || c == '\x60'

/-- What stands before the path in a line that declares it. -/
def directive : List Char := "module".toList

/-- The path that a line declares. -/
def pathOfLine? (line : List Char) : Option String := do
  let line := trim Blank.isBlank (withoutComment line)
  guard (directive.isPrefixOf line)
  let rest := line.drop directive.length
  guard (rest.head?.any Blank.isBlank)
  let path := trim isQuote (trim Blank.isBlank rest)
  guard (path ≠ [])
  return String.ofList path

/-- The path that the content of a module file declares: that of the first line which declares one. -/
def declaredPath? (content : String) : Option String := (lines content.toList).findSome? pathOfLine?

/-- What the names of packages of external tests end in. -/
def externalSuffix : String := "_test"

/-- The identifier without the ending of external tests, if it has it. -/
def withoutExternalSuffix (package : String) : String :=
  if externalSuffix.toList.isSuffixOf package.toList then
    String.ofList (package.toList.take (package.length - externalSuffix.length))
  else
    package

/-- The way from the directory of the module to another one, or nothing if that one is not inside it. -/
def wayTo (m : GoModule) (directory : String) : List String :=
  ((Path.relativeTo? m.root directory).getD []).map Path.Part.text

/-- The identifier of the package in a directory. -/
def packageOf (m : GoModule) (directory : String) : String :=
  let way := m.wayTo directory
  withoutExternalSuffix (if way.isEmpty then m.path else m.path ++ "/" ++ Path.joined way)

end GoModule

end SuiteReport.Go
