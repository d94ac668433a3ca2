import SuiteReport.Go.Grammar.Statements
/-!
# The grammar of source files

A source file is a row of declarations and statements, each ended before the next one begins. Package
clauses, imports and functions with a name stand at the top level only; statements may stand there too, and
nothing asks for a certain order.

## Main definitions

* `Grammar.pattern`: the table of the rules.
* `Grammar.sourceItems`: all that a source file may hold.
-/

namespace SuiteReport.Go.Grammar

open Pattern

/-- The package that a file belongs to. -/
def packageClause : Pattern Rule :=
  .node .packageClause (.sequence [keyword .package, name []])

/-- Imported packages, each perhaps under another name. -/
def importDeclaration : Pattern Rule :=
  let spec := .node .importSpec (.sequence [maybe (.choice [symbol .dot, name []]), stringLiteral])
  .node .importDeclaration (.sequence [
    keyword .import,
    .choice [
      spec,
      .sequence [symbol .leftParenthesis, maybe (endedList spec), symbol .rightParenthesis]]])

/-- A signature and perhaps a body, which has to begin on the line where the signature ends. -/
def signatureAndBody : Pattern Rule := .sequence [
  signature, maybe (.sequence [.sameLine, .role .body (.rule .block)])]

/-- A function with a name. -/
def functionDeclaration : Pattern Rule :=
  .node .functionDeclaration (.sequence [
    keyword .func, name [], maybe (.role .typeParameters typeParameters), signatureAndBody])

/-- A function that belongs to a type. -/
def methodDeclaration : Pattern Rule :=
  .node .methodDeclaration (.sequence [
    keyword .func, .rule .parameterList, name [], signatureAndBody])

/-- What may stand at the top level. -/
def sourceItem : Pattern Rule := .choice [
  functionDeclaration,
  methodDeclaration,
  packageClause,
  importDeclaration,
  .sequence [
    .notAhead (.choice [keyword .package, keyword .import]),
    .rule .statement]]

/-- All that a source file holds. -/
def sourceItems : Pattern Rule := maybe (endedList sourceItem)

/-- The table of the rules. -/
def pattern : Rule → Pattern Rule
  | .type => type
  | .namedType => namedType
  | .typeArguments => typeArguments
  | .parameterList => parameterList
  | .result => result
  | .expression => expression
  | .conjunction => conjunction
  | .comparison => comparison
  | .arithmetic => arithmetic
  | .term => term
  | .unary => unary
  | .primary => primary
  | .literalValue => literalValue
  | .literalElement => literalElement
  | .argumentList => argumentList
  | .statement => statement
  | .statements => statements
  | .simpleStatement => simpleStatement
  | .block => block
  | .ifStatement => ifStatement

end SuiteReport.Go.Grammar
