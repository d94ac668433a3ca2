/-!
# Lines of a text

A line ends at a line feed, together with the carriage return just before it if there is one. The part
after the last line feed is a line only if it is not empty.

## Main definitions

* `splitOn`: the parts of a text between the occurrences of a character.
* `lines`: the lines of a text, without what ends them.
-/

namespace SuiteReport

/-- The parts of a text between the occurrences of `sep`: one more than there are occurrences. -/
def splitOn (sep : Char) : List Char → List (List Char)
  | [] => [[]]
  | c :: rest =>
    if c = sep then
      [] :: splitOn sep rest
    else
      match splitOn sep rest with
      | [] => [[c]]
      | part :: parts => (c :: part) :: parts

/-- The line without the carriage return at its end, if it has one. -/
def dropCarriageReturn (line : List Char) : List Char :=
  if line.getLast? = some '\r' then line.dropLast else line

/-- The lines of a text. -/
def lines (s : List Char) : List (List Char) :=
  let parts := splitOn '\n' s
  let ended := parts.dropLast.map dropCarriageReturn
  match parts.getLast? with
  | none | some [] => ended
  | some last => ended ++ [last]

end SuiteReport
