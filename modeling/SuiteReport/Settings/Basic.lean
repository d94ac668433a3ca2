/-!
# Settings

What a project may set for itself: how test functions and sub-tests are recognised, how far a comment may
stand from what it documents, which directories are left out, and how much of a failure is shown.

## Main definitions

* `Settings`: the settings; the fields' defaults are the settings of a project that sets none.
-/

namespace SuiteReport

/-- The settings of a project. -/
structure Settings where
  /-- How the names of test functions begin. -/
  testPrefix : String := "Test"
  /-- The method that registers a sub-test. -/
  runMethod : String := "Run"
  /-- The most bytes that may lie between a comment and what it documents. -/
  maxCommentGap : Nat := 10
  /-- The names of directories that are not searched. -/
  excludeDirs : List String := []
  /-- The most characters of a failure message that a report shows. -/
  failSnippet : Nat := 300
deriving DecidableEq, Repr, Inhabited

end SuiteReport
