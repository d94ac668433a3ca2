import SuiteReport.Text.Decimal
/-!
# JSON values

The values that responses are made of. Numbers are natural numbers, since nothing else is ever counted, and
the fields of an object keep their order.

## Main definitions

* `JsonValue`: a value.
* `JsonValue.pretty`: the value as text, one element or field to a line.
-/

namespace SuiteReport

/-- A JSON value. -/
inductive JsonValue where
  /-- No value. -/
  | null
  /-- A truth value. -/
  | boolean (b : Bool)
  /-- A natural number. -/
  | number (n : Nat)
  /-- A text. -/
  | string (s : String)
  /-- Values in a row. -/
  | array (elements : List JsonValue)
  /-- Values with keys. -/
  | object (fields : List (String × JsonValue))
deriving Repr, Inhabited

namespace JsonValue

/-! ### Access -/

/-- The text that a value is. -/
def string? : JsonValue → Option String
  | .string s => some s
  | _ => none

/-- The number that a value is. -/
def number? : JsonValue → Option Nat
  | .number n => some n
  | _ => none

/-- The values that a value is a row of. -/
def array? : JsonValue → Option (List JsonValue)
  | .array vs => some vs
  | _ => none

/-- The fields that a value consists of. -/
def object? : JsonValue → Option (List (String × JsonValue))
  | .object fields => some fields
  | _ => none

/-! ### Text -/

/-- A hexadecimal digit, in lower case. -/
def hexDigit (n : Nat) : Char := if n < 10 then Char.ofNat (48 + n) else Char.ofNat (87 + n)

/-- A character as it is written between quotes. Quotes, backslashes and control characters are escaped. -/
def escapeChar (c : Char) : List Char :=
  if c = '"' then ['\\', '"']
  else if c = '\\' then ['\\', '\\']
  else if c = '\x08' then ['\\', 'b']
  else if c = '\x0C' then ['\\', 'f']
  else if c = '\n' then ['\\', 'n']
  else if c = '\r' then ['\\', 'r']
  else if c = '\t' then ['\\', 't']
  else if c < ' ' then ['\\', 'u', '0', '0', hexDigit (c.toNat / 16), hexDigit (c.toNat % 16)]
  else [c]

/-- A text between quotes. -/
def quoted (s : String) : String := "\"" ++ String.ofList (s.toList.flatMap escapeChar) ++ "\""

mutual

/-- The value as text. Elements and fields stand on lines of their own, two blanks further in than the line
that the value begins on, which is itself indented by `indent`. -/
def prettyAt (indent : String) : JsonValue → String
  | .null => "null"
  | .boolean true => "true"
  | .boolean false => "false"
  | .number n => decimal n
  | .string s => quoted s
  | .array [] => "[]"
  | .array (v :: vs) =>
    let inner := indent ++ "  "
    "[\n" ++ inner ++ prettyAt inner v ++ prettyElements inner vs ++ "\n" ++ indent ++ "]"
  | .object [] => "\x7b\x7d"
  | .object ((key, v) :: fields) =>
    let inner := indent ++ "  "
    "\x7b\n" ++ inner ++ quoted key ++ ": " ++ prettyAt inner v ++ prettyFields inner fields
      ++ "\n" ++ indent ++ "\x7d"

/-- The elements of an array after its first. -/
def prettyElements (indent : String) : List JsonValue → String
  | [] => ""
  | v :: vs => ",\n" ++ indent ++ prettyAt indent v ++ prettyElements indent vs

/-- The fields of an object after its first. -/
def prettyFields (indent : String) : List (String × JsonValue) → String
  | [] => ""
  | (key, v) :: fields =>
    ",\n" ++ indent ++ quoted key ++ ": " ++ prettyAt indent v ++ prettyFields indent fields

end

/-- The value as a text of its own, which ends in a line feed. -/
def pretty (v : JsonValue) : String := prettyAt "" v ++ "\n"

end JsonValue

end SuiteReport
