import SuiteReport.Text.Bytes
/-!
# Positions in a text

A place in a text is given either by its byte offset or by a line and a column. Lines and columns count
from one, and columns count bytes. The line feed belongs to the line that it ends, so the column just
before it can be addressed; a text that ends in a line feed has an empty last line.

## Main definitions

* `Position.ofOffset`: the position of an offset; beyond the end it is the position of the end.
* `Position.offset?`: the offset of a position, if the text has that position.
-/

namespace SuiteReport

/-- A line and a column of a text, both counted from one. -/
structure Position where
  /-- The line. -/
  line : Nat
  /-- The column, in bytes. -/
  column : Nat
deriving DecidableEq, Repr

namespace Position

/-- The position just after a line feed: the beginning of the next line. -/
def nextLine (p : Position) : Position := ⟨p.line + 1, 1⟩

/-- The position just after `b`. -/
def after (p : Position) (b : UInt8) : Position :=
  if b == Bytes.newline then p.nextLine else ⟨p.line, p.column + 1⟩

/-- The position that is reached from `p` after at most so many bytes of the content. -/
def advance (p : Position) : Nat → Bytes → Position
  | 0, _ => p
  | _ + 1, [] => p
  | n + 1, b :: rest => advance (p.after b) n rest

/-- The position of a byte offset. An offset beyond the content has the position of its end. -/
def ofOffset (content : Bytes) (offset : Nat) : Position := advance ⟨1, 1⟩ offset content

/-- The offset of the first byte of a line, or `none` if the content has fewer lines. -/
def lineStart? (content : Bytes) : Nat → Option Nat
  | 0 => none
  | 1 => some 0
  | line + 2 =>
    match content.idxOf? Bytes.newline with
    | none => none
    | some i => (lineStart? (content.drop (i + 1)) (line + 1)).map (i + 1 + ·)

/-- The number of bytes before the first line feed, or before the end if there is none. -/
def lineLength (content : Bytes) : Nat := (content.takeWhile (· != Bytes.newline)).length

/-- The offset of a position, or `none` if the content has no such line, or the line no such column. -/
def offset? (content : Bytes) (p : Position) : Option Nat :=
  if p.column = 0 then
    none
  else do
    let start ← lineStart? content p.line
    if p.column - 1 ≤ lineLength (content.drop start) then
      some (start + (p.column - 1))
    else
      none

end Position

end SuiteReport
