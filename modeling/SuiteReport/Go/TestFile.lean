import SuiteReport.Go.Source
import SuiteReport.Go.Subtest
import SuiteReport.Settings.Basic
/-!
# Test files

A test file becomes a suite: its test functions with the sub-tests registered in them, and the comment of its
package clause. Test functions are those whose names begin with the prefix of the settings.

## Main definitions

* `Source.functions`: the functions of a file.
* `Scope.testFunction?`: the unit of a function, if it is a test function.
* `Source.suite?`: the suite that a file makes up, if it has a test function.
-/

namespace SuiteReport.Go

namespace Source

/-- What the search for sub-tests needs to know of the file. -/
def scope (f : Source) (settings : Settings) : Scope :=
  { content := f.content
    blocks := CommentBlock.blocks f.content f.comments
    runMethod := settings.runMethod
    maxCommentGap := settings.maxCommentGap }

/-- The functions with a name that the file declares. -/
def functions (f : Source) : List Node := f.tree.children.filter (·.kind == .functionDeclaration)

end Source

namespace Scope

/-- The name of a declared function. -/
def functionName? (s : Scope) (n : Node) : Option String := (n.child? .name).map (·.text s.content)

/-- The sub-tests registered in the body of a declared function. -/
def subtestsOf (s : Scope) (n : Node) (parent : String) : List TestUnit :=
  match n.child? .body with
  | none => []
  | some body => subtests s body parent []

/-- The unit of a declared function, if its name begins as those of test functions do. -/
def testFunction? (s : Scope) (testPrefix : String) (n : Node) : Option TestUnit := do
  let name ← s.functionName? n
  guard (testPrefix.toList.isPrefixOf name.toList)
  return TestUnit.root name (s.comment n) (s.subtestsOf n name)

end Scope

namespace Source

/-- The comment of the first package clause, if it has one. -/
def description? (f : Source) (s : Scope) : Option String := do
  let clause ← f.tree.children.find? (·.kind == .packageClause)
  let comment := s.comment clause
  guard (comment ≠ "")
  return comment

/-- The suite of a file that belongs to a package, or `none` if the file has no test function. -/
def suite? (f : Source) (settings : Settings) (package name : String) : Option TestSuite :=
  let s := f.scope settings
  match f.functions.filterMap (s.testFunction? settings.testPrefix) with
  | [] => none
  | units => some { package, name, description := f.description? s, units }

end Source

end SuiteReport.Go
