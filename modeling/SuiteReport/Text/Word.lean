import SuiteReport.Text.Identifier
/-!
# Word characters

A word character in the sense of Unicode regular expressions is alphabetic, a mark, a decimal digit, a
connector or one of the two joiners. The class differs from the characters of identifiers in a few ranges
only, and it is defined here by those differences.
-/

namespace SuiteReport.Word

/-- Word characters that no identifier contains. -/
def addedRanges : List (Nat × Nat) := [
  (0x37A, 0x37A), (0x488, 0x489), (0x1ABE, 0x1ABE), (0x200C, 0x200D), (0x20DD, 0x20E0), (0x20E2,
  0x20E4), (0x24B6, 0x24E9), (0x2E2F, 0x2E2F), (0xA670, 0xA672), (0xFC5E, 0xFC63), (0xFDFA, 0xFDFB),
  (0xFE70, 0xFE70), (0xFE72, 0xFE72), (0xFE74, 0xFE74), (0xFE76, 0xFE76), (0xFE78, 0xFE78), (0xFE7A,
  0xFE7A), (0xFE7C, 0xFE7C), (0xFE7E, 0xFE7E), (0x1F130, 0x1F149), (0x1F150, 0x1F169), (0x1F170,
  0x1F189)]

/-- Characters of identifiers that are no word characters. -/
def removedRanges : List (Nat × Nat) := [
  (0xB7, 0xB7), (0x387, 0x387), (0x1369, 0x1371), (0x19DA, 0x19DA), (0x2118, 0x2118), (0x212E,
  0x212E)]

/-- Whether the character is a word character. -/
def isWordChar (c : Char) : Bool :=
  if c.toNat < 0x80 then
    c.isAlphanum || c == '_'
  else
    (Identifier.isContinuation c && !Identifier.inRanges removedRanges c.toNat)
      || Identifier.inRanges addedRanges c.toNat

end SuiteReport.Word
