/-!
# Failures

What a command can fail with. Only what makes the whole command useless is a failure; a file that cannot be
read or understood is passed over.

## Main definitions

* `Failure`: the causes.
* `Failure.message`: what is said about a failure.
* `Failure.exitCode`: the code that the program ends with.
-/

namespace SuiteReport

/-- Why a command failed. -/
inductive Failure where
  /-- The settings cannot be read or understood. -/
  | settings (problem : String)
  /-- The directory to search does not exist or is none. -/
  | rootNotFound (path : String)
  /-- The directory to search does not belong to a module. -/
  | moduleNotFound (path : String)
  /-- The report cannot be written. -/
  | output (path problem : String)
  /-- Something went wrong that should not have. -/
  | internal (problem : String)
deriving DecidableEq, Repr

namespace Failure

/-- What is said about a failure. -/
def message : Failure → String
  | settings problem => "configuration error: " ++ problem
  | rootNotFound path => "source root not found: " ++ path
  | moduleNotFound path => "no go.mod found for " ++ path ++ " or any parent directory"
  | output path problem => "failed to write " ++ path ++ ": " ++ problem
  | internal problem => "internal error: " ++ problem

/-- The path that a failure is about, if it is about one. -/
def path? : Failure → Option String
  | rootNotFound path | moduleNotFound path | output path _ => some path
  | settings _ | internal _ => none

/-- The code that the program ends with. -/
def exitCode : Failure → Nat
  | settings _ => 2
  | rootNotFound _ | moduleNotFound _ => 3
  | output _ _ => 4
  | internal _ => 10

end Failure

end SuiteReport
