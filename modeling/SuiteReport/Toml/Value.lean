import SuiteReport.Text.Reader
/-!
# Values of TOML documents

## Main definitions

* `Toml.Value`: a value.
* `Toml.Value.field?`: the value of a key.
-/

namespace SuiteReport.Toml

/-- A value of a document. Fractional numbers and dates keep the way they are written. -/
inductive Value where
  /-- A text. -/
  | text (s : String)
  /-- A whole number of 64 bits. -/
  | integer (n : Int)
  /-- A number with a fraction or an exponent, an infinity, or no number. -/
  | float (spelling : String)
  /-- A truth value. -/
  | boolean (b : Bool)
  /-- A date, a time, or both. -/
  | dateTime (spelling : String)
  /-- Values in a row. -/
  | array (elements : List Value)
  /-- Values with keys, no key twice. -/
  | table (fields : List (String × Value))
deriving Repr

/-- The value of a key, if the value is a table that has it. -/
def Value.field? (key : String) : Value → Option Value
  | .table fields => fields.lookup key
  | _ => none

end SuiteReport.Toml
