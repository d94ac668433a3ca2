import SuiteReport.Go.Grammar
import SuiteReport.Go.Token.Scan
/-!
# Source files

A source file that has been read: its bytes, its syntax tree and its comments. A file with anything in it
that the grammar does not admit is not read at all.

## Main definitions

* `Source.parse?`: reads a file.
-/

namespace SuiteReport.Go

/-- A file that has been read. -/
structure Source where
  /-- The content of the file. -/
  content : Bytes
  /-- Its syntax tree, comments included. -/
  tree : Node
  /-- The bytes that each comment covers, in order. -/
  comments : List Span

namespace Source

/-- Steps into the grammar that suffice for a number of tokens. From one token to the next no more rules
can be entered than the grammar has levels. -/
def steps (tokens : List Token) : Nat := 128 * (tokens.length + 4)

/-- The nodes at the top level of a row of tokens, if all tokens can be read. -/
def items? (tokens : List Token) : Option (List Node) := do
  let m ← Grammar.sourceItems.read Grammar.pattern (steps tokens) .statement (.nothing []) tokens
  guard (m.rest.all Token.isLineEnd)
  return m.nodes

/-- Reads a file, or answers `none` if it holds a syntax error. -/
def parse? (content : Bytes) : Option Source := do
  let lexemes ← Lexemes.ofBytes? content
  let items ← items? lexemes.tokens
  let tree : Node := ⟨.sourceFile, none, ⟨0, content.length⟩, items⟩
  return ⟨content, tree.weave lexemes.comments, lexemes.comments⟩

end Source

end SuiteReport.Go
