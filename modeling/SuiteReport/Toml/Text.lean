import SuiteReport.Text.Reader
/-!
# Texts and keys of TOML documents

A basic text stands between double quotes and may hold escapes; a literal text stands between single quotes
and may not. Three quotes at each end let a text go over several lines, in which case a line end just after
the opening quotes is dropped and all others become line feeds.

## Main definitions

* `Toml.text`: a text of any of the four forms.
* `Toml.key`: a key, in parts.
* `Toml.blank`, `Toml.lineEnd`, `Toml.restOfLine`: what may stand between the parts of a document.
-/

namespace SuiteReport.Toml

open Reader

/-! ### Between the parts -/

/-- White space within a line. -/
def isBlank (c : Char) : Bool := c == ' ' || c == '\t'

/-- Characters that may stand in comments and texts: all but the control characters, of which the tab is
admitted. -/
def isPlain (c : Char) : Bool := c == '\t' || (' ' ≤ c && c != '\x7F')

/-- White space within a line, if there is any. -/
def blank : Reader Unit := do
  let _ ← takeWhile isBlank

/-- The end of a line: a line feed, perhaps after a carriage return. -/
def lineEnd : Reader Unit := char '\n' <|> literal ['\r', '\n']

/-- A comment. -/
def comment : Reader Unit := do
  char '#'
  let _ ← takeWhile isPlain

/-- What may stand on the line after a part of the document: white space, a comment, and the end of the
line or the document. -/
def restOfLine : Reader Unit := do
  blank
  let _ ← atMostOnce comment
  lineEnd <|> theEnd

/-- White space, line ends, and comments before line ends. -/
def gap : Reader Unit := do
  blank
  let _ ← many (do
    let _ ← atMostOnce comment
    lineEnd
    blank)

/-! ### Texts -/

/-- The value of a hexadecimal digit. -/
def hexDigit (c : Char) : Nat :=
  if '0' ≤ c ∧ c ≤ '9' then c.toNat - '0'.toNat
  else if 'a' ≤ c ∧ c ≤ 'f' then c.toNat - 'a'.toNat + 10
  else c.toNat - 'A'.toNat + 10

/-- Whether the character is a hexadecimal digit. -/
def isHexDigit (c : Char) : Bool :=
  ('0' ≤ c && c ≤ '9') || ('a' ≤ c && c ≤ 'f') || ('A' ≤ c && c ≤ 'F')

/-- The character whose number is written in the given number of hexadecimal digits. -/
def scalar (digits : Nat) : Reader Char := do
  let n := (← times digits isHexDigit).foldl (fun n c => n * 16 + hexDigit c) 0
  guard n.isValidChar
  return Char.ofNat n

/-- The character that an escape stands for. -/
def escape : Reader Char := do
  char '\\'
  match ← one fun _ => true with
  | 'b' => return '\x08'
  | 't' => return '\t'
  | 'n' => return '\n'
  | 'f' => return '\x0C'
  | 'r' => return '\r'
  | '"' => return '"'
  | '\\' => return '\\'
  | 'u' => scalar 4
  | 'U' => scalar 8
  | _ => failure

/-- The single quote. -/
def singleQuote : Char := '\x27'

/-- A basic text on one line. -/
def basicText : Reader (List Char) := do
  char '"'
  let cs ← many (escape <|> one fun c => isPlain c && c != '"' && c != '\\')
  char '"'
  return cs

/-- A literal text on one line. -/
def literalText : Reader (List Char) := do
  char singleQuote
  let cs ← takeWhile fun c => isPlain c && c != singleQuote
  char singleQuote
  return cs

/-- A backslash at the end of a line, with the white space up to the next character that is none. -/
def foldedLine : Reader (List Char) := do
  char '\\'
  blank
  lineEnd
  let _ ← many (lineEnd <|> do
    let _ ← one isBlank)
  return []

/-- A line end inside a text. -/
def innerLineEnd : Reader (List Char) := do
  lineEnd
  return ['\n']

/-- One or two quotes with something other than a quote after them, so that they belong to the text. -/
def innerQuotes (quote : Char) : Reader (List Char) := do
  let quotes ← takeWhile1 (· == quote)
  guard (quotes.length ≤ 2)
  return quotes

/-- The closing quotes, after up to two more that belong to the text. -/
def closingQuotes (quote : Char) : Reader (List Char) := do
  let quotes ← takeWhile (· == quote)
  guard (3 ≤ quotes.length && quotes.length ≤ 5)
  return quotes.drop 3

/-- A text over several lines between three quotes at each end, put together from pieces. -/
def multilineText (quote : Char) (piece : Reader (List Char)) : Reader (List Char) := do
  literal [quote, quote, quote]
  let _ ← atMostOnce lineEnd
  let pieces ← many (innerLineEnd <|> innerQuotes quote <|> piece)
  return pieces.flatten ++ (← closingQuotes quote)

/-- A basic text over several lines. -/
def multilineBasicText : Reader (List Char) :=
  multilineText '"' (foldedLine <|> (fun c => [c]) <$> escape
    <|> takeWhile1 fun c => isPlain c && c != '"' && c != '\\')

/-- A literal text over several lines. -/
def multilineLiteralText : Reader (List Char) :=
  multilineText singleQuote (takeWhile1 fun c => isPlain c && c != singleQuote)

/-- A text. -/
def text : Reader String :=
  String.ofList <$> (multilineBasicText <|> basicText <|> multilineLiteralText <|> literalText)

/-! ### Keys -/

/-- Characters of keys that need no quotes. -/
def isBare (c : Char) : Bool :=
  ('a' ≤ c && c ≤ 'z') || ('A' ≤ c && c ≤ 'Z') || ('0' ≤ c && c ≤ '9') || c == '_' || c == '-'

/-- One part of a key. -/
def simpleKey : Reader String := String.ofList <$> (basicText <|> literalText <|> takeWhile1 isBare)

/-- How deeply arrays and tables may be nested, and how many parts a key may have. -/
def nestingLimit : Nat := 79

/-- A key: parts with dots between them. -/
def key : Reader (List String) := do
  let parts ← separated (blank *> simpleKey <* blank) (char '.')
  guard (parts.length ≤ nestingLimit)
  return parts

end SuiteReport.Toml
