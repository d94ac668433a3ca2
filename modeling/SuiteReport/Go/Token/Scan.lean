import SuiteReport.Go.Token.Basic
import SuiteReport.Go.Token.Extent
import SuiteReport.Text.Identifier
/-!
# Scanning

Turning a source into its tokens and comments. At every place one thing begins: white space, a comment, a
word, a literal or a symbol, and it is as long as it can be. A source in which nothing of the kind begins at
some place has no tokens.

## Main definitions

* `Lexemes`: the tokens and the comments of a source, each in order.
* `Lexemes.ofBytes?`: the lexemes of a source.
-/

namespace SuiteReport.Go

/-- Something that stands at one place of a source. -/
inductive Lexeme where
  /-- White space other than a line end. -/
  | blank
  /-- A comment. -/
  | comment
  /-- A token. -/
  | token (cls : TokenClass)
deriving DecidableEq, Repr

/-- The tokens and the comments of a source, each in order. -/
structure Lexemes where
  /-- The tokens, line ends among them. -/
  tokens : List Token
  /-- The bytes that each comment covers. -/
  comments : List Span
deriving DecidableEq, Repr

namespace Lexeme

/-- White space within a line: tab, vertical tab, form feed, carriage return and blank. -/
def isBlank (c : Char) : Bool := c == '\t' || c == '\x0B' || c == '\x0C' || c == '\r' || c == ' '

/-- The characters of the glyphs. -/
def spelling (gs : List Glyph) : String := String.ofList (gs.filterMap Glyph.char?)

/-- The word at the beginning, and the number of its glyphs. -/
def word? : List Glyph → Option (Lexeme × Nat)
  | [] => none
  | g :: rest =>
    if g.is Identifier.isStart then
      let word := g :: rest.takeWhile (·.is Identifier.isContinuation)
      some (.token (.word (Keyword.ofSpelling? (spelling word))), word.length)
    else
      none

/-- Whether the characters are those of the first glyphs. -/
def begins : List Char → List Glyph → Bool
  | [], _ => true
  | _ :: _, [] => false
  | c :: cs, g :: gs => g.is (· == c) && begins cs gs

/-- The symbol at the beginning, and the number of its glyphs. -/
def symbol? (gs : List Glyph) : Option (Lexeme × Nat) :=
  (Symbol.spellings.find? fun entry => begins entry.1 gs).map fun entry =>
    (.token (.symbol entry.2), entry.1.length)

/-- The kinds of literal, with how far each reaches. Of two that reach equally far the first is meant. -/
def literals : List (LiteralClass × Extent) := [
  (.interpretedString, .interpretedString), (.rawString, .rawString), (.rune, .rune),
  (.imaginary, .imaginary), (.float, .float), (.integer, .integer)]

/-- The longest literal at the beginning, and the number of its glyphs. -/
def literal? (gs : List Glyph) : Option (Lexeme × Nat) :=
  literals.foldr (fun entry later =>
    match entry.2 gs, later with
    | none, _ => later
    | some n, none => some (.token (.literal entry.1), n)
    | some n, some found => if found.2 ≤ n then some (.token (.literal entry.1), n) else some found) none

/-- What stands at the beginning, and the number of its glyphs. -/
def next? (gs : List Glyph) : Option (Lexeme × Nat) :=
  match gs with
  | [] => none
  | g :: _ =>
    if g.is isBlank then some (.blank, 1)
    else if g.is (· == '\n') then some (.token .lineEnd, 1)
    else
      ((Extent.comment gs).map (Lexeme.comment, ·)).orElse fun _ =>
      (word? gs).orElse fun _ => (literal? gs).orElse fun _ => symbol? gs

end Lexeme

namespace Lexemes

/-- Puts one lexeme before the others. -/
def cons (span : Span) (lexeme : Lexeme) (later : Lexemes) : Lexemes :=
  match lexeme with
  | .blank => later
  | .comment => ⟨later.tokens, span :: later.comments⟩
  | .token cls => ⟨⟨cls, span⟩ :: later.tokens, later.comments⟩

/-- The lexemes of at most `n` glyphs, the first of which stands at `offset`. -/
def scan? : Nat → Nat → List Glyph → Option Lexemes
  | _, _, [] => some ⟨[], []⟩
  | 0, _, _ :: _ => none
  | n + 1, offset, gs => do
    let (lexeme, count) ← Lexeme.next? gs
    let stop := offset + ((gs.take count).map Glyph.width).sum
    let later ← scan? n stop (gs.drop count)
    return later.cons ⟨offset, stop⟩ lexeme

/-- The lexemes of a source, after a byte order mark if it begins with one. -/
def ofBytes? (source : Bytes) : Option Lexemes :=
  match source.glyphs with
  | [] => some ⟨[], []⟩
  | g :: rest =>
    if g.is (· == '\uFEFF') then scan? rest.length g.width rest else scan? (rest.length + 1) 0 (g :: rest)

end Lexemes

end SuiteReport.Go
