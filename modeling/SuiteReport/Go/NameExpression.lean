import SuiteReport.Go.Node
import SuiteReport.Go.StringLiteral
/-!
# Name expressions

The name of a sub-test is an expression, often a text joined to a loop variable. It stands for as many names
as its variables have values. A variable has values if it goes through the elements of a composite literal;
a variable of the same name further in hides one further out.

## Main definitions

* `LoopBinding`: a loop variable and its values.
* `NameExpression.names`: the names that an expression stands for.
* `NameExpression.elements`: the values of a composite literal.
-/

namespace SuiteReport.Go

/-- A loop variable and the values that it goes through. -/
structure LoopBinding where
  /-- The variable. -/
  name : String
  /-- The values, in order. -/
  values : List String
deriving DecidableEq, Repr

namespace NameExpression

/-- The values of the innermost variable with the name; the bindings go from the outermost to the
innermost. -/
def innermost? (bindings : List LoopBinding) (name : String) : Option (List String) :=
  (bindings.reverse.find? (·.name == name)).map LoopBinding.values

/-- The names that a variable stands for: its values, or the variable as it is written if it has none. -/
def ofVariable (bindings : List LoopBinding) (name : String) : List String :=
  match innermost? bindings name with
  | none | some [] => [name]
  | some values => values

/-- Every text of the first list with every text of the second after it. -/
def joined (lefts rights : List String) : List String :=
  lefts.flatMap fun l => rights.map fun r => l ++ r

mutual

/-- The names that an expression stands for. Of a sum, the names of the left operand change most slowly. An
expression of a kind that is not followed stands for itself as it is written, as does a malformed text. -/
def names (content : Bytes) (bindings : List LoopBinding) : Node → List String
  | ⟨kind, _, span, children⟩ =>
    let text := content.text span
    match kind with
    | .interpretedString | .rawString => [(StringLiteral.decode? text).getD text]
    | .identifier => ofVariable bindings text
    | .sum =>
      match operandNames? content bindings .left children, operandNames? content bindings .right children with
      | some lefts, some rights => joined lefts rights
      | _, _ => [text]
    | _ => [text]

/-- The names that the first of the nodes in a role stands for. -/
def operandNames? (content : Bytes) (bindings : List LoopBinding) (role : Role) :
    List Node → Option (List String)
  | [] => none
  | n :: later =>
    if n.role = some role then some (names content bindings n)
    else operandNames? content bindings role later

end

/-- The value of an element: what the text means if it is one, else the element as it is written. A malformed
text has no value. -/
def value? (content : Bytes) (element : Node) : Option String :=
  let value :=
    if element.kind = .literalElement then element.parts.head?.getD element else element
  if value.isString then StringLiteral.decode? (value.text content) else some (value.text content)

/-- The values of the elements of a composite literal, in order. Nothing else has elements. -/
def elements (content : Bytes) (collection : Node) : List String :=
  if collection.kind = .compositeLiteral then
    match collection.child? .body with
    | none => []
    | some body => body.parts.filterMap (value? content)
  else
    []

end NameExpression

end SuiteReport.Go
