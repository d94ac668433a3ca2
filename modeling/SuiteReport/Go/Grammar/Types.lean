import SuiteReport.Go.Grammar.Rule
/-!
# Types, parameters and signatures

A name of a type may be qualified by a package and may have type arguments. Parameters are either names with
a type after them or a type alone; which of the two it is shows only after the names, so the first is tried
before the second.

## Main definitions

* `Grammar.type`, `Grammar.namedType`: types.
* `Grammar.parameterList`, `Grammar.result`, `Grammar.signature`: parameters and results.
* `Grammar.typeParameters`: type parameters and what constrains them.
-/

namespace SuiteReport.Go.Grammar

open Pattern

/-- A type given by its name, which may be qualified and may have type arguments. -/
def namedType : Pattern Rule :=
  .extend
    (.extend (word .typeName typeKeywords)
      (.node .qualifiedType (.sequence [.operand, .sameLine, symbol .dot, word .typeName []])))
    (.node .genericType (.sequence [.operand, .sameLine, .rule .typeArguments]))

/-- One or more types, any of which may be meant. -/
def typeUnion : Pattern Rule :=
  .node .typeUnion (.sequence [.rule .type, .many (.sequence [.sameLine, symbol .bar, .rule .type])])

/-- The arguments of a generic type or function. -/
def typeArguments : Pattern Rule := .node .typeArguments (inBrackets (listWithEnd typeUnion))

/-- The fields of a structure: names with a type, or an embedded type alone; a tag may follow. -/
def structField : Pattern Rule :=
  let tag := maybe (.sequence [.sameLine, stringLiteral])
  let fieldEnd := .ahead (.choice [.statementEnd, symbol .rightBrace])
  let embedded := .extend
    (.extend (word .typeName [])
      (.node .qualifiedType (.sequence [.operand, .sameLine, symbol .dot, word .typeName []])))
    (.node .genericType (.sequence [.operand, .sameLine, .rule .typeArguments]))
  .choice [
    .node .field (.sequence [maybe (symbol .star), .role .type embedded, tag, fieldEnd]),
    .node .field
      (.sequence [list (word .fieldName []), .sameLine, .role .type (.rule .type), tag])]

/-- A member of an interface: a method, or types that are admitted. -/
def interfaceMember : Pattern Rule := .choice [
  .node .method (.sequence [
    .role .name (word .fieldName typeKeywords), .sameLine, .role .parameters (.rule .parameterList),
    maybe (.sequence [.sameLine, .role .result (.rule .result)])]),
  typeUnion]

/-- An array or a slice. -/
def arrayType : Pattern Rule := .choice [
  .node .sliceType (.sequence [inBrackets empty, .rule .type]),
  .node .arrayType (.sequence [inBrackets (.rule .expression), .rule .type])]

/-- A map. -/
def mapType : Pattern Rule :=
  .node .mapType (.sequence [keyword .map, inBrackets (.rule .type), .rule .type])

/-- A structure. -/
def structType : Pattern Rule := .node .structType (.sequence [keyword .struct, members structField])

/-- An interface. -/
def interfaceType : Pattern Rule :=
  .node .interfaceType (.sequence [keyword .interface, members interfaceMember])

/-- A channel, perhaps of one direction. -/
def channelType : Pattern Rule := .node .channelType (.choice [
  .sequence [keyword .chan, maybe (.sequence [.sameLine, symbol .arrow]), .rule .type],
  .sequence [symbol .arrow, keyword .chan, .rule .type]])

/-- Parameters and result. -/
def signature : Pattern Rule := .sequence [
  .role .parameters (.rule .parameterList),
  maybe (.sequence [.sameLine, .role .result (.rule .result)])]

/-- The type of functions with a signature. -/
def functionType : Pattern Rule := .node .functionType (.sequence [keyword .func, signature])

/-- A type without parentheses around it. -/
def simpleType : Pattern Rule := .choice [
  .rule .namedType,
  .node .pointerType (.sequence [symbol .star, .rule .type]),
  arrayType, mapType, structType, interfaceType, channelType, functionType,
  .node .approximationType (.sequence [symbol .tilde, .rule .type])]

/-- A type. -/
def type : Pattern Rule :=
  .choice [simpleType, .node .parenthesizedType (inParentheses (.rule .type))]

/-- Parameters of a function. -/
def parameterList : Pattern Rule :=
  let parameterName := word .identifier typeKeywords
  let parameter := .choice [
    .node .variadicParameter
      (.sequence [maybe (.role .name parameterName), symbol .ellipsis, .role .type (.rule .type)]),
    .node .parameter (.sequence [list (.role .name parameterName), .role .type (.rule .type)]),
    .node .parameter (.role .type (.rule .type))]
  .node .parameterList (inParentheses (.sequence [maybe (list parameter), maybe (symbol .comma)]))

/-- What a function returns: a type, or a list of parameters. -/
def result : Pattern Rule := .choice [.rule .parameterList, simpleType]

/-- Type parameters: names with the types that they are constrained to. -/
def typeParameters : Pattern Rule :=
  let parameter := .node .typeParameter
    (.sequence [list (name typeKeywords), .role .type typeUnion])
  .node .typeParameterList (inBrackets (listWithEnd parameter))

end SuiteReport.Go.Grammar
