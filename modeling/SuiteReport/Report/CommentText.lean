import SuiteReport.Text.Blank
import SuiteReport.Text.Lines
import SuiteReport.Text.Word
/-!
# The text of comments

A comment block is kept with its markers. For readers the markers are taken off line by line, and lines
that direct a tool are left out: build constraints and the switches of linters.

## Main definitions

* `CommentText.isDirective`: lines that direct a tool.
* `CommentText.stripMarkers`: a line without comment markers.
* `CommentText.body`: the text of a block, without blank lines at its ends.
* `CommentText.summary`: the line of a block that describes it best.
-/

namespace SuiteReport.CommentText

/-- The text after `start`, if it begins so. -/
def after? (start : String) (s : List Char) : Option (List Char) :=
  if start.toList.isPrefixOf s then some (s.drop start.length) else none

/-- The text without any number of slash pairs at its beginning. -/
def dropSlashes : List Char → List Char
  | '/' :: '/' :: rest => dropSlashes rest
  | s => s

/-- Whether a word that ends just before the text ends there: no word character follows. -/
def atWordEnd (s : List Char) : Bool := !s.head?.any Word.isWordChar

/-- Whether a line directs a tool: `go:` and a name, `nolint`, `lint:` or `+build`. -/
def isDirective (line : List Char) : Bool :=
  let s := dropSlashes (trim Blank.isBlank line)
  (after? "go:" s).any (fun rest => rest.head?.any (! Blank.isBlank ·))
    || (after? "nolint" s).any atWordEnd
    || (after? "lint:" s).isSome
    || (after? "+build" (trimStart Blank.isBlank s)).any atWordEnd

/-- The line without a marker that opens a comment. -/
def dropOpening (s : List Char) : List Char :=
  ((after? "//" s).or (after? "/*" s)).getD s

/-- The line without a marker that closes a block comment. -/
def dropClosing (s : List Char) : List Char :=
  if "*/".toList.isSuffixOf s then s.dropLast.dropLast else s

/-- The line without the star that continues a block comment: a star before a blank or alone. -/
def dropContinuation : List Char → List Char
  | ['*'] => []
  | '*' :: ' ' :: rest => ' ' :: rest
  | s => s

/-- The line without comment markers and without white space at its ends. -/
def stripMarkers (line : List Char) : List Char :=
  let s := dropClosing (dropOpening (trim Blank.isBlank line))
  trim Blank.isBlank (dropContinuation (trimStart Blank.isBlank s))

/-- The lines of a block that are for readers, without their markers. -/
def readableLines (comment : List Char) : List (List Char) :=
  ((lines comment).filter (! isDirective ·)).map stripMarkers

/-- The list without its empty members at both ends. -/
def dropBlankEnds (ls : List (List Char)) : List (List Char) :=
  ((ls.dropWhile List.isEmpty).reverse.dropWhile List.isEmpty).reverse

/-- The text of a comment block without markers, directives and blank lines at its ends. -/
def bodyChars (comment : List Char) : List Char :=
  ['\n'].intercalate (dropBlankEnds (readableLines comment))

/-- The text of a comment block without markers, directives and blank lines at its ends. -/
def body (comment : String) : String := String.ofList (bodyChars comment.toList)

/-- The mark of a line that holds a description. -/
def descriptionMark : String := "@desc:"

/-- The summary that a line gives, if it gives one: a description without its mark, or any line that is
not empty and no tag. -/
def lineSummary? (line : List Char) : Option (List Char) :=
  match after? descriptionMark line with
  | some description => some (trim Blank.isBlank description)
  | none => if line.isEmpty || line.head? == some '@' then none else some line

/-- The summary that the first of the lines gives that gives one. -/
def firstSummary (ls : List (List Char)) : List Char := (ls.findSome? lineSummary?).getD []

/-- The one line that stands for a comment block; empty if there is none. -/
def summary (comment : String) : String :=
  String.ofList (firstSummary (readableLines comment.toList))

end SuiteReport.CommentText
