import SuiteReport.Text.Bytes
/-!
# Tokens

A source is read as a row of tokens: words, symbols, literals and line ends. A word that means something in
some place of the grammar carries its keyword; elsewhere the same word is an ordinary identifier, so which
of the two it is gets decided by the grammar and not here. White space and comments are no tokens.

## Main definitions

* `Keyword`, `Keyword.ofSpelling?`: the words with a meaning of their own.
* `Symbol`, `Symbol.spellings`: operators and punctuation; the operators that assign share one symbol.
* `Token`: a class of token and the bytes it covers.
-/

namespace SuiteReport.Go

/-- A word that means something of its own in some place of the grammar. -/
inductive Keyword where
  | «break» | «case» | chan | const | «continue» | default | defer | «else» | «fallthrough» | «for» | func
  | go | goto | «if» | «import» | interface | map | package | range | «return» | select | struct | switch
  | type | var | make | new | nil | «true» | «false» | iota
deriving DecidableEq, Repr

namespace Keyword

/-- How each keyword is written. -/
def spellings : List (String × Keyword) := [
  ("break", .break), ("case", .case), ("chan", .chan), ("const", .const), ("continue", .continue),
  ("default", .default), ("defer", .defer), ("else", .else), ("fallthrough", .fallthrough), ("for", .for),
  ("func", .func), ("go", .go), ("goto", .goto), ("if", .if), ("import", .import),
  ("interface", .interface), ("map", .map), ("package", .package), ("range", .range),
  ("return", .return), ("select", .select), ("struct", .struct), ("switch", .switch), ("type", .type),
  ("var", .var), ("make", .make), ("new", .new), ("nil", .nil), ("true", .true), ("false", .false),
  ("iota", .iota)]

/-- The keyword that is written as `word`. -/
def ofSpelling? (word : String) : Option Keyword := spellings.lookup word

end Keyword

/-- An operator or a punctuation mark. -/
inductive Symbol where
  | leftParenthesis | rightParenthesis | leftBracket | rightBracket | leftBrace | rightBrace
  | comma | semicolon | colon | dot | ellipsis
  | plus | minus | star | slash | percent | ampersand | bar | caret | ampersandCaret | shiftLeft | shiftRight
  | exclamation | tilde | arrow | and | or
  | equal | notEqual | less | lessEqual | greater | greaterEqual
  | increment | decrement
  /-- The equals sign. -/
  | assign
  /-- The sign that declares the variables on its left. -/
  | define
  /-- An arithmetic operator joined to an equals sign. -/
  | update
  /-- The byte zero, which ends a statement as a semicolon does. -/
  | null
deriving DecidableEq, Repr

namespace Symbol

/-- How each symbol is written. No spelling stands before a longer one that it begins. -/
def spellings : List (List Char × Symbol) := [
  (['&', '^', '='], .update), (['<', '<', '='], .update), (['>', '>', '='], .update),
  (['.', '.', '.'], .ellipsis),
  (['&', '^'], .ampersandCaret), (['<', '<'], .shiftLeft), (['>', '>'], .shiftRight),
  (['<', '-'], .arrow), (['&', '&'], .and), (['|', '|'], .or),
  (['=', '='], .equal), (['!', '='], .notEqual), (['<', '='], .lessEqual), (['>', '='], .greaterEqual),
  (['+', '+'], .increment), (['-', '-'], .decrement), ([':', '='], .define),
  (['+', '='], .update), (['-', '='], .update), (['*', '='], .update), (['/', '='], .update),
  (['%', '='], .update), (['&', '='], .update), (['|', '='], .update), (['^', '='], .update),
  (['('], .leftParenthesis), ([')'], .rightParenthesis), (['['], .leftBracket), ([']'], .rightBracket),
  (['\x7b'], .leftBrace), (['\x7d'], .rightBrace), ([','], .comma), ([';'], .semicolon), ([':'], .colon),
  (['.'], .dot), (['+'], .plus), (['-'], .minus), (['*'], .star), (['/'], .slash), (['%'], .percent),
  (['&'], .ampersand), (['|'], .bar), (['^'], .caret), (['!'], .exclamation), (['~'], .tilde),
  (['<'], .less), (['>'], .greater), (['='], .assign), (['\x00'], .null)]

end Symbol

/-- The kinds of literal that one token makes up. -/
inductive LiteralClass where
  | interpretedString | rawString | integer | float | imaginary | rune
deriving DecidableEq, Repr

/-- What a token is. -/
inductive TokenClass where
  /-- A word, with its keyword if it is one. -/
  | word (keyword : Option Keyword)
  /-- An operator or a punctuation mark. -/
  | symbol (s : Symbol)
  /-- A literal. -/
  | literal (c : LiteralClass)
  /-- The end of a line. -/
  | lineEnd
deriving DecidableEq, Repr

/-- A token: its class and the bytes it covers. -/
structure Token where
  /-- What it is. -/
  cls : TokenClass
  /-- The bytes it covers. -/
  span : Span
deriving DecidableEq, Repr

end SuiteReport.Go
