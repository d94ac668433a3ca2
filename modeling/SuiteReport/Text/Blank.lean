/-!
# White space

White space in the sense of the Unicode property `White_Space`, and trimming of texts by a character class.

## Main definitions

* `Blank.isBlank`: the character class.
* `trimStart`, `trimEnd`, `trim`: removal of leading and trailing characters of a class.
* `Blank.trim`: removal of white space at both ends of a text.
-/

namespace SuiteReport

/-- The text without its leading characters of the class. -/
def trimStart (p : Char → Bool) (s : List Char) : List Char := s.dropWhile p

/-- The text without its trailing characters of the class. -/
def trimEnd (p : Char → Bool) (s : List Char) : List Char := (s.reverse.dropWhile p).reverse

/-- The text without its leading and trailing characters of the class. -/
def trim (p : Char → Bool) (s : List Char) : List Char := trimEnd p (trimStart p s)

namespace Blank

/-- Whether the character has the Unicode property `White_Space`. -/
def isBlank (c : Char) : Bool :=
  let n := c.toNat
  (0x09 ≤ n && n ≤ 0x0D) || n == 0x20 || n == 0x85 || n == 0xA0 || n == 0x1680
    || (0x2000 ≤ n && n ≤ 0x200A) || n == 0x2028 || n == 0x2029 || n == 0x202F || n == 0x205F || n == 0x3000

/-- The text without white space at its ends. -/
def trim (s : String) : String := String.ofList (SuiteReport.trim isBlank s.toList)

end Blank

end SuiteReport
