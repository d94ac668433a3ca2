import SuiteReport.Go.Grammar.Expressions
/-!
# Statements

A statement ends with its line, with a semicolon, or with the brace that closes its block. The headers of
control statements hold simple statements, the last of which may have to be an expression.

## Main definitions

* `Grammar.statement`, `Grammar.statements`, `Grammar.block`: statements and rows of them.
* `Grammar.simpleStatement`: expressions and what makes statements of them.
* `Grammar.ifStatement`, `Grammar.forStatement`, `Grammar.switchStatement`, `Grammar.selectStatement`:
  control statements.
* `Grammar.declaration`: constants, variables and types.
-/

namespace SuiteReport.Go.Grammar

open Pattern

/-- The keywords that begin statements or clauses. -/
def statementKeywords : List Keyword := [
  .const, .type, .var, .return, .go, .defer, .if, .for, .switch, .select, .fallthrough, .break, .continue,
  .goto, .case, .default]

/-! ### Declarations -/

/-- One specification, or a group of them between parentheses, each ended on its own. -/
def specifications (p : Pattern Rule) : Pattern Rule := .choice [
  p,
  .sequence [
    symbol .leftParenthesis, .many (.sequence [p, .statementEnd]), symbol .rightParenthesis]]

/-- Constants, which may be left to repeat the values before them. -/
def constDeclaration : Pattern Rule :=
  let spec := .node .constSpec (.sequence [
    list (name []),
    maybe (.sequence [
      .sameLine, maybe (.role .type (.rule .type)), .sameLine, symbol .assign,
      .role .value expressionList])])
  .node .constDeclaration (.sequence [keyword .const, specifications spec])

/-- Variables with a type, with values, or with both. -/
def varDeclaration : Pattern Rule :=
  let values := .sequence [symbol .assign, .role .value expressionList]
  let spec := .node .varSpec (.sequence [
    name [], .many (.sequence [symbol .comma, name []]),
    .choice [
      .sequence [.role .type (.rule .type), maybe (.sequence [.sameLine, values])],
      values]])
  .node .varDeclaration (.sequence [keyword .var, specifications spec])

/-- Types, defined or equated, and perhaps generic. -/
def typeDeclaration : Pattern Rule :=
  let definition := .sequence [maybe (symbol .assign), .role .type (.rule .type)]
  let spec := .node .typeSpec (.sequence [
    name [],
    .choice [.sequence [.role .typeParameters typeParameters, definition], definition]])
  .node .typeDeclaration (.sequence [keyword .type, specifications spec])

/-- A declaration that may stand among statements. -/
def declaration : Pattern Rule := .choice [constDeclaration, varDeclaration, typeDeclaration]

/-! ### Simple statements -/

/-- The expressions before an operator that assigns: the operand and any further ones. -/
def assigned : Pattern Rule :=
  .role .left (.node .expressionList (.sequence [
    .operand, .many (.sequence [.sameLine, symbol .comma, .rule .expression])]))

/-- What makes a statement of an expression. -/
def simpleSuffix : Pattern Rule := .choice [
  .node .increment (.sequence [.operand, .sameLine, symbol .increment]),
  .node .decrement (.sequence [.operand, .sameLine, symbol .decrement]),
  .node .sendStatement (.sequence [
    .role .left .operand, .sameLine, symbol .arrow, .role .right (.rule .expression)]),
  .node .assignment (.sequence [
    assigned, .sameLine, anySymbol [.assign, .update], .role .right expressionList]),
  .node .shortVarDeclaration (.sequence [
    assigned, .sameLine, symbol .define, .role .right expressionList])]

/-- An expression, or a statement that begins with one. -/
def simpleStatement : Pattern Rule := .extend (.rule .expression) simpleSuffix

/-- Whether the last of the nodes is an expression. -/
def endsInExpression (nodes : List Node) : Bool := nodes.getLast?.any (·.kind.isExpression)

/-! ### Control statements -/

/-- A condition, perhaps after a simple statement, a block, and perhaps another branch. -/
def ifStatement : Pattern Rule :=
  let condition := .provided endsInExpression (.sequence [
    .rule .simpleStatement, maybe (.sequence [symbol .semicolon, .rule .expression])])
  .node .ifStatement (.sequence [
    keyword .if, .inside .header condition, .rule .block,
    maybe (.sequence [
      .sameLine, keyword .else, .choice [.rule .block, .rule .ifStatement]])])

/-- The elements to go through, perhaps assigned to variables. -/
def rangeSuffix : Pattern Rule :=
  .node .rangeClause (.sequence [
    assigned, anySymbol [.assign, .define], keyword .range, .role .right (.rule .expression)])

/-- The header of a loop: elements to go through, three parts between semicolons, or a condition. -/
def loopHeader : Pattern Rule :=
  let tail := .sequence [
    symbol .semicolon, maybe (.rule .expression),
    symbol .semicolon, maybe (.rule .simpleStatement)]
  .choice [
    .node .rangeClause (.sequence [keyword .range, .role .right (.rule .expression)]),
    .node .forClause tail,
    .provided
      (·.any fun n => n.kind == .rangeClause || n.kind == .forClause || n.kind.isExpression)
      (.extend
        (.extend (.rule .expression) (.choice [rangeSuffix, simpleSuffix]))
        (.node .forClause (.sequence [.operand, tail])))]

/-- A loop. -/
def forStatement : Pattern Rule :=
  .node .forStatement (.sequence [
    keyword .for, .inside .header (maybe loopHeader), .role .body (.rule .block)])

/-- The statements of a case. -/
def caseBody : Pattern Rule := .inside .statement (maybe (.rule .statements))

/-- The case that is taken if no other is. -/
def defaultCase : Pattern Rule :=
  .node .defaultCase (.sequence [keyword .default, symbol .colon, caseBody])

/-- The cases of a statement between braces. -/
def cases (p : Pattern Rule) : Pattern Rule := .sequence [
  symbol .leftBrace, .many (.choice [p, defaultCase]), symbol .rightBrace]

/-- Whether the last of the nodes asks for the type of a value, perhaps to name it. -/
def endsInGuard (nodes : List Node) : Bool :=
  nodes.getLast?.any fun n =>
    n.kind == .typeGuard ||
      (n.kind == .shortVarDeclaration && (n.child? .right).any (·.children.any (·.kind == .typeGuard)))

/-- A switch on the type of a value, or one on values. -/
def switchStatement : Pattern Rule :=
  let later (p : Pattern Rule) := maybe (.sequence [symbol .semicolon, p])
  let guarded := .provided endsInGuard
    (.sequence [.rule .simpleStatement, later (.rule .simpleStatement)])
  let valued := .choice [
    .provided endsInExpression (.sequence [.rule .simpleStatement, later (.rule .expression)]),
    .sequence [.rule .simpleStatement, symbol .semicolon],
    empty]
  let typeCase := .node .typeCase (.sequence [
    keyword .case, .inside .bracket (list (.rule .type)), symbol .colon, caseBody])
  let expressionCase := .node .expressionCase (.sequence [
    keyword .case, .inside .bracket expressionList, symbol .colon, caseBody])
  .choice [
    .node .typeSwitch (.sequence [keyword .switch, .inside .ofSwitch guarded, cases typeCase]),
    .node .expressionSwitch (.sequence [keyword .switch, .inside .ofSwitch valued, cases expressionCase])]

/-- Whether the nodes are a communication: a value sent, or one received and perhaps assigned. -/
def isCommunication (nodes : List Node) : Bool :=
  nodes.any fun n =>
    n.kind == .sendStatement || n.kind == .assignment || n.kind == .shortVarDeclaration || n.kind.isExpression

/-- A choice between communications. -/
def selectStatement : Pattern Rule :=
  let communicationCase := .node .communicationCase (.sequence [
    keyword .case, .inside .bracket (.provided isCommunication (.rule .simpleStatement)),
    symbol .colon, caseBody])
  .node .selectStatement (.sequence [keyword .select, cases communicationCase])

/-! ### Statements -/

/-- A word with a colon after it. -/
def label : Pattern Rule := .sequence [
  word .label (statementKeywords ++ typeKeywords), .sameLine, symbol .colon]

/-- A keyword that may name a label on its line. -/
def jump (kind : Kind) (k : Keyword) : Pattern Rule :=
  .node kind (.sequence [keyword k, maybe (.sequence [.sameLine, word .label []])])

/-- A statement. -/
def statement : Pattern Rule := .choice [
  .sequence [
    .notAhead (.token fun c => statementKeywords.any fun k => c == .word (some k)),
    .choice [
      .node .labeledStatement (.sequence [label, .rule .statement]),
      .sequence [.notAhead label, .rule .simpleStatement],
      .rule .block,
      .leaf .emptyStatement (· == .symbol .semicolon)]],
  .rule .ifStatement,
  forStatement,
  switchStatement,
  declaration,
  .node .returnStatement (.sequence [keyword .return, maybe (.sequence [.sameLine, expressionList])]),
  .node .goStatement (.sequence [keyword .go, .rule .expression]),
  .node .deferStatement (.sequence [keyword .defer, .rule .expression]),
  selectStatement,
  jump .breakStatement .break,
  jump .continueStatement .continue,
  .node .gotoStatement (.sequence [keyword .goto, word .label []]),
  .leaf .fallthroughStatement (· == .word (some .fallthrough))]

/-- Statements of a block or a case. A label needs no statement at the end. -/
def statements : Pattern Rule :=
  endedList (.choice [.rule .statement, .node .labeledStatement label])

/-- Statements between braces. -/
def block : Pattern Rule :=
  .node .block (.inside .statement
    (.sequence [symbol .leftBrace, maybe (.rule .statements), symbol .rightBrace]))

end SuiteReport.Go.Grammar
