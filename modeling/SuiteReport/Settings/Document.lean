import SuiteReport.Settings.Basic
import SuiteReport.Toml.Document
/-!
# Reading settings

The settings of a project stand in one table of a TOML document; a row of values in the order of the
settings serves as well. What is left out keeps its default, and what is not known is passed over.

## Main definitions

* `Settings.parse?`: the settings that a document makes.
-/

namespace SuiteReport.Settings

open Toml (Value)

/-- The key of the table that holds the settings. -/
def tableKey : String := "testdoc"

/-- The text that a value is. -/
def text? : Value → Option String
  | .text s => some s
  | _ => none

/-- The natural number that a value is. -/
def natural? : Value → Option Nat
  | .integer n => if 0 ≤ n then some n.toNat else none
  | _ => none

/-- The texts that a value is a row of. -/
def texts? : Value → Option (List String)
  | .array vs => vs.mapM text?
  | _ => none

/-- What a value means, or the default if it is missing. -/
def orDefault {α : Type} (read? : Value → Option α) (default : α) : Option Value → Option α
  | none => some default
  | some v => read? v

/-- The settings, where `given` looks up a value by its key or its place. -/
def ofValues? (given : String → Nat → Option Value) : Option Settings := do
  let defaults : Settings := {}
  return {
    testPrefix := ← orDefault text? defaults.testPrefix (given "test_prefix" 0)
    runMethod := ← orDefault text? defaults.runMethod (given "run_method" 1)
    maxCommentGap := ← orDefault natural? defaults.maxCommentGap (given "max_comment_gap" 2)
    excludeDirs := ← orDefault texts? defaults.excludeDirs (given "exclude_dirs" 3)
    failSnippet := ← orDefault natural? defaults.failSnippet (given "fail_snippet" 4) }

/-- The settings that a value means: a table, or a row. -/
def ofValue? : Value → Option Settings
  | .table fields => ofValues? fun key _ => fields.lookup key
  | .array elements => ofValues? fun _ place => elements[place]?
  | _ => none

/-- The settings that a document makes, or `none` if it is malformed or gives a setting the wrong kind of
value. -/
def parse? (document : String) : Option Settings := do
  match (← Toml.parse? document).field? tableKey with
  | none => return {}
  | some v => ofValue? v

end SuiteReport.Settings
