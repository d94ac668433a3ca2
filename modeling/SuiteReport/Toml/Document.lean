import SuiteReport.Toml.Entry
import SuiteReport.Toml.Number
import SuiteReport.Toml.Text
/-!
# TOML documents

A document is a row of keys with values, divided by headers. The keys before the first header belong to the
document itself.

## Main definitions

* `Toml.value`: a value of any kind.
* `Toml.parse?`: the table that a document describes.
-/

namespace SuiteReport.Toml

open Reader

/-! ### Values -/

/-- A key with its value: the parts before the last, the last part, and the value. -/
def keyValue (value : Reader Value) : Reader (List String × String × Value) := do
  let parts ← key
  char '='
  blank
  let v ← value
  match parts.getLast? with
  | none => failure
  | some last => return (parts.dropLast, last, v)

/-- An array. Its elements may stand on several lines, and a comma may follow the last. -/
def array (value : Reader Value) : Reader Value := do
  char '['
  let element := gap *> value <* gap
  let elements ← atMostOnce (separated element (char ','))
  if elements.isSome then
    let _ ← atMostOnce (char ',')
  gap
  char ']'
  return .array (elements.getD [])

/-- The table with the given keys, unless they contradict one another. -/
def ofKeyValues? (pairs : List (List String × String × Value)) : Option Value := do
  let fields ← pairs.foldlM (fun (fields : Fields) (path, key, v) => fields.put? path key v) []
  return .table (Entry.finishFields fields)

/-- A table on one line. -/
def inlineTable (value : Reader Value) : Reader Value := do
  char '\x7b'
  let pairs ← atMostOnce (separated (keyValue value <* blank) (char ','))
  blank
  char '\x7d'
  match ofKeyValues? (pairs.getD []) with
  | none => failure
  | some table => return table

/-- A value in which arrays and tables are nested at most so deeply. -/
def value : Nat → Reader Value
  | 0 => simple failure
  | depth + 1 => simple (array (value depth) <|> inlineTable (value depth))
where
  /-- A value that is not nested, or what else may stand in its place. -/
  simple (nested : Reader Value) : Reader Value :=
    .text <$> text
      <|> .dateTime <$> dateTime
      <|> .float <$> float
      <|> .integer <$> integer
      <|> giving (Value.boolean true) (literal ['t', 'r', 'u', 'e'])
      <|> giving (Value.boolean false) (literal ['f', 'a', 'l', 's', 'e'])
      <|> nested

/-! ### Documents -/

/-- A header, with the part of its path that comes before the last. -/
inductive Header where
  /-- The header of a table. -/
  | table (path : List String) (key : String)
  /-- A header that may be repeated. -/
  | tables (path : List String) (key : String)

/-- The path of a header: the parts before the last, and the last. -/
def headerPath : Reader (List String × String) := do
  let parts ← key
  match parts.getLast? with
  | none => failure
  | some last => return (parts.dropLast, last)

/-- A header and the rest of its line. -/
def header : Reader Header :=
  (do
    literal ['[', '[']
    let (path, last) ← headerPath
    literal [']', ']']
    restOfLine
    return .tables path last)
  <|> (do
    char '['
    let (path, last) ← headerPath
    char ']'
    restOfLine
    return .table path last)

/-- A line with nothing on it but white space and a comment. -/
def emptyLine : Reader Unit := do
  blank
  let _ ← atMostOnce comment
  lineEnd

/-- Lines with nothing on them, and white space. -/
def emptyLines : Reader Unit := do
  let _ ← many emptyLine
  blank

/-- Keys with their values, each on a line of its own. -/
def keyValues : Reader (List (List String × String × Value)) :=
  many (emptyLines *> keyValue (value nestingLimit) <* restOfLine)

/-- The keys before the first header, and each header with the keys below it. -/
def sections : Reader (List (List String × String × Value) × List (Header × List (List String × String × Value))) := do
  let _ ← atMostOnce (char '\uFEFF')
  let own ← keyValues
  let headed ← many (do
    emptyLines
    let h ← header
    return (h, ← keyValues))
  emptyLines
  let _ ← atMostOnce comment
  return (own, headed)

/-- Adds keys with their values to the fields of a table. -/
def putAll? (pairs : List (List String × String × Value)) (fields : Fields) : Option Fields :=
  pairs.foldlM (fun fields (path, key, v) => fields.put? path key v) fields

/-- The fields of a document with a header and the keys below it added. -/
def addSection? (fields : Fields) : Header × List (List String × String × Value) → Option Fields
  | (.table path key, pairs) => fields.atHeader? path key (putAll? pairs)
  | (.tables path key, pairs) => fields.atArrayHeader? path key (putAll? pairs)

/-- The table that a document describes, or `none` if it is malformed or contradicts itself. -/
def parse? (document : String) : Option Value := do
  let (own, headed) ← sections.whole? document.toList
  let fields ← putAll? own []
  let fields ← headed.foldlM addSection? fields
  return .table (Entry.finishFields fields)

end SuiteReport.Toml
