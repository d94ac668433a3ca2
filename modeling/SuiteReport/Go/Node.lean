import SuiteReport.Text.Bytes
/-!
# Syntax trees

A syntax tree has a node for every construct that has a name; punctuation is left out. A node knows the
bytes that it covers and, where its parent has children of several uses, the role that it plays there.
Comments may stand between any two tokens. A tree is read without them, and each then becomes a child of the
innermost node that it lies inside.

## Main definitions

* `Node`: a construct, its role, the bytes it covers and its children in order.
* `Node.child?`: the child that plays a role.
* `Node.parts`: the children other than comments.
* `Node.weave`: the tree with comments put in.
* `Node.covering?`: the innermost node that covers exactly some bytes.
-/

namespace SuiteReport.Go

/-- The constructs of a source. -/
inductive Kind where
  | sourceFile | comment
  -- declarations
  | packageClause | importDeclaration | importSpec | functionDeclaration | methodDeclaration
  | constDeclaration | constSpec | varDeclaration | varSpec | typeDeclaration | typeSpec
  | parameterList | parameter | variadicParameter | typeParameterList | typeParameter
  -- types
  | typeName | qualifiedType | genericType | typeArguments | pointerType | structType | field | interfaceType
  | method | typeUnion | arrayType | sliceType | mapType | channelType | functionType | approximationType
  | parenthesizedType
  -- statements
  | block | emptyStatement | labeledStatement | label | sendStatement | increment | decrement | assignment
  | shortVarDeclaration | returnStatement | goStatement | deferStatement | breakStatement
  | continueStatement | gotoStatement | fallthroughStatement | ifStatement | forStatement | forClause
  | rangeClause | expressionSwitch | typeSwitch | typeGuard | expressionCase | typeCase | defaultCase
  | selectStatement | communicationCase
  -- expressions
  | expressionList | identifier | fieldName | nil | boolean | iota | interpretedString | rawString | integer
  | float | imaginary | rune | parenthesizedExpression | functionLiteral | compositeLiteral | literalValue
  | literalElement | keyedElement | typeConversion | selectorExpression | typeAssertion
  | subscriptExpression | typeInstantiation | callExpression | argumentList | variadicArgument
  | unaryExpression
  /-- Two operands joined by a plus sign. -/
  | sum
  /-- Two operands joined by any other operator. -/
  | binaryExpression
deriving DecidableEq, Repr

/-- Whether the construct is an expression. -/
def Kind.isExpression (k : Kind) : Bool :=
  [.identifier, .nil, .boolean, .iota, .interpretedString, .rawString, .integer, .float, .imaginary, .rune,
    .parenthesizedExpression, .functionLiteral, .compositeLiteral, .typeConversion, .selectorExpression,
    .typeAssertion, .subscriptExpression, .typeInstantiation, .callExpression, .unaryExpression, .sum,
    .binaryExpression].contains k

/-- The use that a parent makes of a child. -/
inductive Role where
  | name | typeParameters | parameters | result | body | type | function | typeArguments | arguments
  | operand | fieldName | left | right | key | value
deriving DecidableEq, Repr

/-- A construct of a source. -/
structure Node where
  /-- Which construct it is. -/
  kind : Kind
  /-- The use that its parent makes of it, where that has to be told. -/
  role : Option Role
  /-- The bytes from its first token to its last. -/
  span : Span
  /-- The constructs inside it, in the order of the source. -/
  children : List Node
deriving Repr

namespace Node

/-- The first child that plays the role. -/
def child? (n : Node) (role : Role) : Option Node := n.children.find? (·.role == some role)

/-- The children other than comments. -/
def parts (n : Node) : List Node := n.children.filter (·.kind != .comment)

/-- The text that the node covers; empty if its bytes are no text. -/
def text (n : Node) (source : Bytes) : String := source.text n.span

/-- The same node in another role. -/
def inRole (role : Role) (n : Node) : Node := { n with role := some role }

/-- Whether the node is a string literal. -/
def isString (n : Node) : Bool := n.kind == .interpretedString || n.kind == .rawString

/-- A comment that covers the given bytes. -/
def ofComment (span : Span) : Node := ⟨.comment, none, span, []⟩

mutual

/-- The tree with comments put in, all of which lie inside the node and between two of its tokens. Each
comes to stand in the innermost node that it lies inside. -/
def weave (comments : List Span) : Node → Node
  | ⟨kind, role, span, children⟩ => ⟨kind, role, span, weaveAll comments children⟩

/-- The trees with comments put in between them and into them. -/
def weaveAll (comments : List Span) : List Node → List Node
  | [] => comments.map ofComment
  | ⟨kind, role, span, children⟩ :: later =>
    (comments.filter fun c => c.stop ≤ span.start).map ofComment ++
      weave (comments.filter span.covers) ⟨kind, role, span, children⟩ ::
        weaveAll (comments.filter fun c => span.stop ≤ c.start) later

end

mutual

/-- The innermost node of the tree that covers exactly the given bytes. -/
def covering? (target : Span) : Node → Option Node
  | ⟨kind, role, span, children⟩ =>
    (coveringAny? target children).orElse fun _ =>
      if span = target then some ⟨kind, role, span, children⟩ else none

/-- The innermost node of several trees that covers exactly the given bytes. -/
def coveringAny? (target : Span) : List Node → Option Node
  | [] => none
  | n :: later => (covering? target n).orElse fun _ => coveringAny? target later

end

end Node

end SuiteReport.Go
