import SuiteReport.Text.Position
import SuiteReport.Text.Blank
/-!
# Comment blocks

Comments that stand directly below one another make up a block; a comment that trails code on its line stands
alone. A block documents what follows it closely. The place that is asked about and the end of the block are
addressed in the bytes at hand by line and column, and these bytes decide how many lines lie between.

## Main definitions

* `CommentBlock.blocks`: the blocks that the comments of a source make up.
* `documentation`: the text of the block that documents a place.
-/

namespace SuiteReport.Go

/-- A place in a source, by offset and by position. -/
structure Anchor where
  /-- The byte offset. -/
  offset : Nat
  /-- The line and column. -/
  position : Position
deriving DecidableEq, Repr

/-- The place at an offset of a source. -/
def Anchor.ofOffset (content : Bytes) (offset : Nat) : Anchor := ⟨offset, Position.ofOffset content offset⟩

/-- A run of comments that belong together. -/
structure CommentBlock where
  /-- The bytes from the beginning of the first comment to the end of the last. -/
  span : Span
  /-- The position just after the last comment. -/
  stop : Position
  /-- The texts of the comments, markers included, one below the other. -/
  text : String
  /-- Whether the block is a comment with code before it on its line. -/
  trailing : Bool
deriving DecidableEq, Repr

namespace CommentBlock

/-- Line ends written as carriage return and line feed, reduced to the line feed. -/
def plainLineEnds : List Char → List Char
  | [] => []
  | '\r' :: '\n' :: rest => '\n' :: plainLineEnds rest
  | c :: rest => c :: plainLineEnds rest

/-- The text of a comment: without the carriage return that its line may end in, and with plain line ends
inside. -/
def commentText (raw : String) : String :=
  String.ofList (plainLineEnds (trimEnd (· == '\r') raw.toList))

/-- The bytes before the offset on its line. -/
def lineBefore (content : Bytes) (offset : Nat) : Bytes :=
  let column := (Position.ofOffset content offset).column
  (content.drop (offset + 1 - column)).take (column - 1)

/-- Whether something other than white space stands before the offset on its line. -/
def followsCode (content : Bytes) (offset : Nat) : Bool :=
  (lineBefore content offset).any (! Bytes.isBlank ·)

/-- The block of a single comment. -/
def ofComment (content : Bytes) (span : Span) : CommentBlock :=
  ⟨span, Position.ofOffset content span.stop, commentText (content.text span), followsCode content span.start⟩

/-- Whether nothing but white space and at most one line feed lies between two offsets. -/
def adjacent (content : Bytes) (stop start : Nat) : Bool :=
  match content.extract? ⟨stop, start⟩ with
  | none => false
  | some gap => gap.all Bytes.isBlank && gap.newlines ≤ 1

/-- Whether the second block goes on where the first one ends. -/
def joins (content : Bytes) (b later : CommentBlock) : Bool :=
  !b.trailing && !later.trailing && adjacent content b.span.stop later.span.start

/-- The two blocks as one. -/
def append (b later : CommentBlock) : CommentBlock :=
  ⟨⟨b.span.start, later.span.stop⟩, later.stop, b.text ++ "\n" ++ later.text, b.trailing⟩

/-- The blocks of some comments, when the first comment may still join the block before them. -/
def blocksFrom (content : Bytes) (b : CommentBlock) : List Span → List CommentBlock
  | [] => [b]
  | span :: later =>
    let next := ofComment content span
    if joins content b next then blocksFrom content (b.append next) later
    else b :: blocksFrom content next later

/-- The blocks that the comments of a source make up, in order. -/
def blocks (content : Bytes) : List Span → List CommentBlock
  | [] => []
  | span :: later => blocksFrom content (ofComment content span) later

/-- Whether the block ends before the place, at most `maxGap` bytes away from it. -/
def reaches (target : Anchor) (maxGap : Nat) (b : CommentBlock) : Bool :=
  b.span.stop ≤ target.offset && target.offset - b.span.stop ≤ maxGap

/-- The bytes between the block and the place, as far as the bytes at hand have them. -/
def gap? (b : CommentBlock) (target : Anchor) (held : Bytes) : Option Bytes := do
  let start ← b.stop.offset? held
  let stop ← target.position.offset? held
  held.extract? ⟨start, stop⟩

end CommentBlock

/-- The text of the block that documents a place: the first block that reaches it, unless more than one line
feed lies between or the bytes at hand do not have what lies between. It is empty if there is none. -/
def documentation (blocks : List CommentBlock) (target : Anchor) (held : Bytes) (maxGap : Nat) : String :=
  match blocks.find? (CommentBlock.reaches target maxGap) with
  | none => ""
  | some b =>
    match b.gap? target held with
    | none => ""
    | some gap => if 1 < gap.newlines then "" else b.text

end SuiteReport.Go
