import SuiteReport.Go.Pattern
/-!
# Rules and building blocks

The names of the rules that refer to one another, and the patterns that all of them are put together from:
keywords, symbols, words and lists.

A word is an identifier wherever the grammar does not admit it as a keyword. So each place where an
identifier may stand says which keywords are reserved there.

## Main definitions

* `Rule`: the names of the rules.
* `Pattern.keyword`, `Pattern.symbol`, `Pattern.word`: single tokens.
* `Pattern.list`, `Pattern.inParentheses`, …: lists and brackets.
-/

namespace SuiteReport.Go

/-- The rules of the grammar that refer to one another. -/
inductive Rule where
  | type | namedType | typeArguments | parameterList | result
  | expression | conjunction | comparison | arithmetic | term | unary | primary | literalValue
  | literalElement | argumentList
  | statement | statements | simpleStatement | block | ifStatement
deriving DecidableEq, Repr

/-- Whether the token is a word, other than the reserved ones. -/
def TokenClass.isWord (reserved : List Keyword) : TokenClass → Bool
  | .word none => true
  | .word (some k) => !reserved.contains k
  | _ => false

namespace Pattern

variable {R : Type}

/-- A keyword. -/
def keyword (k : Keyword) : Pattern R := .token (· == .word (some k))

/-- A symbol. -/
def symbol (s : Symbol) : Pattern R := .token (· == .symbol s)

/-- One of several symbols. -/
def anySymbol (ss : List Symbol) : Pattern R := .token fun c => ss.any fun s => c == .symbol s

/-- A word where some are reserved. -/
def word (kind : Kind) (reserved : List Keyword) : Pattern R := .leaf kind (·.isWord reserved)

/-- The name in the role of the name. -/
def name (reserved : List Keyword) : Pattern R := .role .name (word .identifier reserved)

/-- The keywords that begin types. -/
def typeKeywords : List Keyword := [.func, .struct, .interface, .map, .chan]

/-- Nothing. -/
def empty : Pattern R := .sequence []

/-- The pattern if it fits, else nothing. -/
def maybe (p : Pattern R) : Pattern R := .choice [p, empty]

/-- Something between two symbols, where line ends are white space. -/
def between (opening closing : Symbol) (p : Pattern R) : Pattern R :=
  .inside .bracket (.sequence [symbol opening, p, symbol closing])

/-- Something between parentheses. -/
def inParentheses (p : Pattern R) : Pattern R := between .leftParenthesis .rightParenthesis p

/-- Something between brackets. -/
def inBrackets (p : Pattern R) : Pattern R := between .leftBracket .rightBracket p

/-- Something between braces. -/
def inBraces (p : Pattern R) : Pattern R := between .leftBrace .rightBrace p

/-- One or more, with commas between them. -/
def list (p : Pattern R) : Pattern R :=
  .sequence [p, .many (.sequence [.sameLine, symbol .comma, p])]

/-- One or more, with commas between them and perhaps one after the last. -/
def listWithEnd (p : Pattern R) : Pattern R := .sequence [list p, maybe (symbol .comma)]

/-- One or more, each ended before the next one begins. -/
def endedList (p : Pattern R) : Pattern R :=
  .sequence [p, .many (.sequence [.statementEnd, p]), maybe .statementEnd]

/-- Members between braces, each ended before the next one begins. -/
def members (p : Pattern R) : Pattern R :=
  .inside .statement
    (.sequence [symbol .leftBrace, maybe (endedList p), symbol .rightBrace])

/-- A text literal. -/
def stringLiteral : Pattern R := .choice [
  .leaf .interpretedString (· == .literal .interpretedString),
  .leaf .rawString (· == .literal .rawString)]

end Pattern

end SuiteReport.Go
