/-!
# Truncation

Long texts are cut to a number of characters and marked by an ellipsis. A limit of zero hides the text.
-/

namespace SuiteReport

/-- The mark that stands for what was cut off. -/
def ellipsis : Char := '…'

/-- At most `limit` characters of the text, followed by an ellipsis if some were left out. -/
def truncateChars (text : List Char) (limit : Nat) : List Char :=
  if limit = 0 then []
  else if text.length ≤ limit then text
  else text.take limit ++ [ellipsis]

/-- At most `limit` characters of the text, followed by an ellipsis if some were left out. -/
def truncate (text : String) (limit : Nat) : String := String.ofList (truncateChars text.toList limit)

end SuiteReport
