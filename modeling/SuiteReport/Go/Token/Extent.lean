import SuiteReport.Text.Bytes
/-!
# Extents

How far the literals of a source reach. An extent looks at the glyphs ahead and answers with the number of
them that it takes, or with `none` if it takes no beginning of them. Extents are put together one after the
other, as options, and by the longest of several.

## Main definitions

* `Extent`: a kind of stretch, given by the length it has at a place.
* `Extent.integer`, `Extent.float`, `Extent.imaginary`: numbers.
* `Extent.rune`, `Extent.interpretedString`, `Extent.rawString`: characters and texts between quotes.
-/

namespace SuiteReport.Go

/-- The number of glyphs that a stretch takes from the beginning, or `none` if it is not there. -/
abbrev Extent := List Glyph → Option Nat

namespace Extent

/-- The empty stretch. -/
def nothing : Extent := fun _ => some 0

/-- One character of a class. -/
def one (p : Char → Bool) : Extent
  | [] => none
  | g :: _ => if g.is p then some 1 else none

/-- One given character. -/
def character (c : Char) : Extent := one (· == c)

/-- One of two given characters. -/
def either (c d : Char) : Extent := one fun x => x == c || x == d

/-- A stretch of `e` and, just after it, one of `f`. -/
def followedBy (e f : Extent) : Extent := fun gs => do
  let m ← e gs
  let n ← f (gs.drop m)
  return m + n

/-- A stretch of `e` if there is one, else the empty stretch. -/
def optional (e : Extent) : Extent := fun gs => (e gs).orElse fun _ => some 0

/-- The longest of several stretches. -/
def longest (es : List Extent) : Extent := fun gs =>
  es.foldl (fun best e => max best (e gs)) none

/-- Stretches one after the other. -/
def chain (es : List Extent) : Extent := es.foldr followedBy nothing

/-! ### Numbers -/

/-- Whether the character is a decimal digit. -/
def isDecimal (c : Char) : Bool := '0' ≤ c && c ≤ '9'

/-- Whether the character is an octal digit. -/
def isOctal (c : Char) : Bool := '0' ≤ c && c ≤ '7'

/-- Whether the character is a binary digit. -/
def isBinary (c : Char) : Bool := c == '0' || c == '1'

/-- Whether the character is a hexadecimal digit. -/
def isHexadecimal (c : Char) : Bool := isDecimal c || ('a' ≤ c && c ≤ 'f') || ('A' ≤ c && c ≤ 'F')

/-- The length of the longest run of digits with single low lines between them; a low line may stand first
if `joined` holds. -/
def digitRun (p : Char → Bool) : Bool → List Glyph → Nat
  | _, [] => 0
  | joined, g :: rest =>
    if g.is p then
      digitRun p true rest + 1
    else if joined && g.is (· == '_') && rest.head?.any (·.is p) then
      digitRun p false rest + 1
    else
      0

/-- At least one digit, with single low lines between digits. -/
def digits (p : Char → Bool) : Extent := fun gs =>
  if gs.head?.any (·.is p) then some (digitRun p false gs) else none

/-- Digits, after a low line or not. -/
def digitsAfterPrefix (p : Char → Bool) : Extent := (optional (character '_')).followedBy (digits p)

/-- A nonzero decimal digit and any further ones. -/
def decimalAfterNonzero : Extent :=
  (one fun c => isDecimal c && c != '0').followedBy (optional (digitsAfterPrefix isDecimal))

/-- An integer in one of four radices. An octal one needs no letter after its zero. -/
def integer : Extent := longest [
  chain [character '0', either 'b' 'B', digitsAfterPrefix isBinary],
  character '0',
  decimalAfterNonzero,
  chain [character '0', optional (either 'o' 'O'), digitsAfterPrefix isOctal],
  chain [character '0', either 'x' 'X', digitsAfterPrefix isHexadecimal]]

/-- An exponent introduced by one of two letters. -/
def exponent (c d : Char) : Extent :=
  chain [either c d, optional (either '+' '-'), digits isDecimal]

/-- A decimal number with a point or an exponent. -/
def decimalFloat : Extent := longest [
  chain [digits isDecimal, character '.', optional (digits isDecimal), optional (exponent 'e' 'E')],
  chain [digits isDecimal, exponent 'e' 'E'],
  chain [character '.', digits isDecimal, optional (exponent 'e' 'E')]]

/-- A hexadecimal number with an exponent to base two. -/
def hexadecimalFloat : Extent :=
  let mantissa := longest [
    chain [digitsAfterPrefix isHexadecimal, character '.', optional (digits isHexadecimal)],
    digitsAfterPrefix isHexadecimal,
    chain [character '.', digits isHexadecimal]]
  chain [character '0', either 'x' 'X', mantissa, exponent 'p' 'P']

/-- A number with a point or an exponent. -/
def float : Extent := longest [decimalFloat, hexadecimalFloat]

/-- A number with the imaginary unit after it. -/
def imaginary : Extent := longest [
  (digits isDecimal).followedBy (character 'i'),
  integer.followedBy (character 'i'),
  float.followedBy (character 'i')]

/-! ### Characters and texts -/

/-- A given number of characters of a class. -/
def times (n : Nat) (p : Char → Bool) : Extent := chain (List.replicate n (one p))

/-- A character between single quotes, itself neither quote nor backslash unless escaped. -/
def rune : Extent :=
  let quote := '\x27'
  let plain : Extent
    | [] => none
    | g :: _ => if g.is (fun c => c == quote || c == '\\') then none else some 1
  let escaped := longest [
    chain [character 'x', times 2 isHexadecimal],
    times 3 isOctal,
    chain [character 'u', times 4 isHexadecimal],
    chain [character 'U', times 8 isHexadecimal],
    one (['a', 'b', 'f', 'n', 'r', 't', 'v', '\\', quote, '"'].contains ·)]
  chain [character quote, longest [plain, (character '\\').followedBy escaped], character quote]

/-- Whether what follows the backslash is an escape as far as the grammar goes: any one glyph, or a letter
that announces hexadecimal digits and as many of them as it asks for. -/
def isEscape (g : Glyph) (rest : List Glyph) : Bool :=
  if g.is (· == 'x') then (times 2 isHexadecimal rest).isSome
  else if g.is (· == 'u') then (times 4 isHexadecimal rest).isSome
  else if g.is (· == 'U') then (times 8 isHexadecimal rest).isSome
  else true

/-- From just after the opening double quote to the closing one, which has to stand on the same line. The
line may be broken by an escape alone. -/
def interpretedStringRest : Extent
  | [] => none
  | [g] => if g.is (· == '"') then some 1 else none
  | g :: e :: rest =>
    if g.is (· == '"') then some 1
    else if g.is (· == '\n') then none
    else if g.is (· == '\\') then
      if isEscape e rest then (interpretedStringRest rest).map (· + 2) else none
    else (interpretedStringRest (e :: rest)).map (· + 1)

/-- A text between double quotes. -/
def interpretedString : Extent := (character '"').followedBy interpretedStringRest

/-- Everything up to the first character of a class, that one included. -/
def through (p : Char → Bool) : Extent := fun gs => (gs.findIdx? (·.is p)).map (· + 1)

/-- A text between back quotes. -/
def rawString : Extent := (character '\x60').followedBy (through (· == '\x60'))

/-! ### Comments -/

/-- Everything up to the end of the line, which is left out. -/
def restOfLine : Extent := fun gs => some ((gs.takeWhile fun g => !g.is (· == '\n')).length)

/-- Everything up to the first star with a slash after it, both included. -/
def throughStarSlash : Extent
  | [] => none
  | g :: rest =>
    if g.is (· == '*') && rest.head?.any (·.is (· == '/')) then some 2
    else (throughStarSlash rest).map (· + 1)

/-- A comment to the end of the line, or one between slashes and stars. -/
def comment : Extent := longest [
  chain [character '/', character '/', restOfLine],
  chain [character '/', character '*', throughStarSlash]]

end Extent

end SuiteReport.Go
