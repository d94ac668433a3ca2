import SuiteReport.Go.Grammar.Types
/-!
# Expressions

Binary operators have five levels and group to the left. What stands after a primary expression extends it:
selectors, arguments, brackets, and the braces of a literal. In the header of a control statement a brace
begins the body, so there a literal needs a type that cannot be mistaken for a value.

## Main definitions

* `Grammar.expression` and the rules of its levels down to `Grammar.unary`.
* `Grammar.primary`: operands and what extends them.
* `Grammar.literalValue`, `Grammar.literalElement`: the values in a composite literal.
* `Grammar.argumentList`: the arguments of a call.
-/

namespace SuiteReport.Go.Grammar

open Pattern

/-- Expressions with commas between them. -/
def expressionList : Pattern Rule := .node .expressionList (list (.rule .expression))

/-! ### Operators -/

/-- An operand extended by an operator from a list and another operand. -/
def operation (kind : Kind) (operators : List Symbol) (operand : Rule) : Pattern Rule :=
  .node kind (.sequence [
    .role .left .operand, .sameLine, anySymbol operators, .role .right (.rule operand)])

/-- Alternatives of which one suffices. -/
def expression : Pattern Rule :=
  .extendMany (.rule .conjunction) (operation .binaryExpression [.or] .conjunction)

/-- Conditions all of which have to hold. -/
def conjunction : Pattern Rule :=
  .extendMany (.rule .comparison) (operation .binaryExpression [.and] .comparison)

/-- Comparisons. -/
def comparison : Pattern Rule :=
  .extendMany (.rule .arithmetic)
    (operation .binaryExpression [.equal, .notEqual, .less, .lessEqual, .greater, .greaterEqual] .arithmetic)

/-- Sums and the operators of their level. -/
def arithmetic : Pattern Rule :=
  .extendMany (.rule .term) (.choice [
    operation .sum [.plus] .term,
    operation .binaryExpression [.minus, .bar, .caret] .term])

/-- Products and the operators of their level. -/
def term : Pattern Rule :=
  .extendMany (.rule .unary)
    (operation .binaryExpression
      [.star, .slash, .percent, .shiftLeft, .shiftRight, .ampersand, .ampersandCaret] .unary)

/-- An operand with any number of operators before it. -/
def unary : Pattern Rule := .choice [
  .node .unaryExpression (.sequence [
    anySymbol [.plus, .minus, .exclamation, .caret, .star, .ampersand, .arrow],
    .role .operand (.rule .unary)]),
  .rule .primary]

/-! ### Operands -/

/-- Literals that are one token, and the values that have a name of their own. -/
def basicLiteral : Pattern Rule := .choice [
  stringLiteral,
  .leaf .integer (· == .literal .integer),
  .leaf .float (· == .literal .float),
  .leaf .imaginary (· == .literal .imaginary),
  .leaf .rune (· == .literal .rune),
  .leaf .nil (· == .word (some .nil)),
  .leaf .boolean (fun c => c == .word (some .true) || c == .word (some .false)),
  .leaf .iota (· == .word (some .iota))]

/-- A function written out in place. -/
def functionLiteral : Pattern Rule :=
  .node .functionLiteral (.sequence [keyword .func, signature, .role .body (.rule .block)])

/-- The value converted to a type. -/
def converted : Pattern Rule :=
  .node .typeConversion (.sequence [
    .role .type .operand, .sameLine,
    inParentheses (.sequence [.role .operand (.rule .expression), maybe (symbol .comma)])])

/-- A type with the braces of a literal after it. -/
def composite : Pattern Rule :=
  .node .compositeLiteral (.sequence [
    .role .type .operand, .sameLine, .role .body (.rule .literalValue)])

/-- An array whose length is that of its literal. -/
def countedArrayType : Pattern Rule :=
  .node .arrayType (.sequence [inBrackets (symbol .ellipsis), .rule .type])

/-- A literal or a conversion that begins with a type which begins no other expression. -/
def typed : Pattern Rule :=
  .provided
    (·.any fun n => n.kind == .compositeLiteral || n.kind == .typeConversion)
    (.extend
      (.choice [countedArrayType, arrayType, mapType, structType, interfaceType, channelType, functionType])
      (.choice [composite, converted]))

/-- The built-in functions whose first argument is a type, applied to one. -/
def allocation : Pattern Rule :=
  let allocator := .leaf .identifier fun c => c == .word (some .make) || c == .word (some .new)
  .node .callExpression (.sequence [
    .role .function allocator, .sameLine,
    .role .arguments (.node .argumentList (inParentheses (.sequence [
      .rule .type, .many (.sequence [symbol .comma, .rule .expression]), maybe (symbol .comma)])))])

/-- What a primary expression begins with. -/
def operand : Pattern Rule := .choice [
  basicLiteral,
  functionLiteral,
  allocation,
  word .identifier typeKeywords,
  typed,
  .node .parenthesizedExpression (inParentheses (.rule .expression)),
  .provided (·.any (·.kind == .typeConversion))
    (.extend (.node .parenthesizedType (inParentheses (.rule .type))) converted)]

/-! ### What extends an operand -/

/-- Whether the nodes are a name that a type may have. -/
def isTypeName (nodes : List Node) : Bool :=
  nodes.any fun n =>
    n.kind == .identifier ||
      (n.kind == .selectorExpression && (n.child? .operand).any (·.kind == .identifier))

/-- A selected field or method. -/
def selector : Pattern Rule :=
  .node .selectorExpression (.sequence [
    .role .operand .operand, .sameLine, symbol .dot, .role .fieldName (word .fieldName [])])

/-- The question for the type of a value, which only the header of a switch may ask. -/
def typeGuard : Pattern Rule :=
  .sequence [
    .within (·.switchHeader),
    .node .typeGuard (.sequence [
      .role .operand .operand, .sameLine, symbol .dot, inParentheses (keyword .type)])]

/-- The value taken to be of a type. -/
def typeAssertion : Pattern Rule :=
  .node .typeAssertion (.sequence [
    .role .operand .operand, .sameLine, symbol .dot, inParentheses (.role .type (.rule .type))])

/-- A call, perhaps with type arguments. -/
def call : Pattern Rule := .choice [
  .node .callExpression (.sequence [
    .role .function .operand, .sameLine, .role .typeArguments (.rule .typeArguments),
    .sameLine, .role .arguments (.rule .argumentList)]),
  .node .callExpression (.sequence [
    .role .function .operand, .sameLine, .role .arguments (.rule .argumentList)])]

/-- The braces of a literal after the name of a type, perhaps with type arguments. -/
def namedComposite : Pattern Rule :=
  .sequence [
    .within (·.bracesBelong),
    .ahead (.provided isTypeName .operand),
    .choice [
      .node .compositeLiteral (.sequence [
        .role .type (.node .genericType (.sequence [.operand, .sameLine, .rule .typeArguments])),
        .sameLine, .role .body (.rule .literalValue)]),
      composite]]

/-- An element, or a part from one index to another. -/
def subscript : Pattern Rule :=
  let fromColon := .sequence [
    symbol .colon,
    maybe (.sequence [
      .rule .expression, maybe (.sequence [symbol .colon, .rule .expression])])]
  .node .subscriptExpression (.sequence [
    .role .operand .operand, .sameLine,
    inBrackets (.choice [.sequence [.rule .expression, maybe fromColon], fromColon])])

/-- A generic function with its type arguments alone. -/
def instantiation : Pattern Rule :=
  .node .typeInstantiation (.sequence [
    .role .operand .operand, .sameLine, .role .typeArguments (.rule .typeArguments)])

/-- An operand and what extends it. -/
def primary : Pattern Rule :=
  .extendMany operand
    (.choice [selector, typeGuard, typeAssertion, call, namedComposite, subscript, instantiation])

/-! ### Literals and arguments -/

/-- The elements of a composite literal, each perhaps with a key. -/
def literalValue : Pattern Rule :=
  let keyed := .node .keyedElement (.sequence [
    .role .key .operand, symbol .colon, .role .value (.rule .literalElement)])
  .node .literalValue (inBraces (.sequence [
    maybe (list (.extend (.rule .literalElement) keyed)), maybe (symbol .comma)]))

/-- An element of a composite literal: an expression, or braces whose type is understood. -/
def literalElement : Pattern Rule :=
  .node .literalElement (.choice [.rule .literalValue, .rule .expression])

/-- The arguments of a call, any of which may stand for the elements of a slice. -/
def argumentList : Pattern Rule :=
  let argument := .extend (.rule .expression)
    (.node .variadicArgument (.sequence [.operand, symbol .ellipsis]))
  .node .argumentList (inParentheses (maybe (listWithEnd argument)))

end SuiteReport.Go.Grammar
