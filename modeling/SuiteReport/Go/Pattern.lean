import SuiteReport.Go.Node
import SuiteReport.Go.Token.Basic
/-!
# Patterns

A grammar is a table of patterns. A pattern says what a row of tokens has to look like and which nodes it is
read as. Alternatives are tried in order and the first that fits is taken; repetition takes as much as it
can; neither is reconsidered when something later does not fit.

A line end is white space, except where a statement may end: there the pattern `sameLine` refuses to go on
past it and `statementEnd` takes it. Whether statements may end by line is part of the `Context`, since
inside brackets and in the headers of control statements they may not.

Operators that stand after their first operand are read by `extend`: the operand is read once, and the
extensions, which take it up as `operand`, go on from there.

## Main definitions

* `Pattern`: the patterns, over a type `R` of rule names.
* `Context`: what surrounds the tokens.
* `Match`: what a pattern has read and what is left.
* `Pattern.read`: reads a pattern at the beginning of a row of tokens.
-/

namespace SuiteReport.Go

/-- What surrounds the tokens that are read. -/
structure Context where
  /-- Whether a line end may end the statement. -/
  lineEnds : Bool
  /-- Whether a brace begins the value of a literal, and not the body of a statement. -/
  bracesBelong : Bool
  /-- Whether the header of a switch is read. -/
  switchHeader : Bool
deriving DecidableEq, Repr

namespace Context

/-- Statements, the specifications of a group, and the members of a type. -/
def statement : Context := ⟨true, true, false⟩

/-- Between brackets of any shape. -/
def bracket : Context := ⟨false, true, false⟩

/-- Between the keyword of a control statement and its body. -/
def header : Context := ⟨false, false, false⟩

/-- Between the keyword of a switch and its body. -/
def ofSwitch : Context := ⟨false, false, true⟩

end Context

/-- What a row of tokens has to look like, and the nodes that it is read as. -/
inductive Pattern (R : Type) where
  /-- One token of a class, read as no node. Line ends before it are passed over. -/
  | token (accepts : TokenClass → Bool)
  /-- One token of a class, read as a node. Line ends before it are passed over. -/
  | leaf (kind : Kind) (accepts : TokenClass → Bool)
  /-- A line end, a semicolon or a byte zero. It belongs to no node. -/
  | statementEnd
  /-- Nothing, provided that no line end which may end the statement comes next. -/
  | sameLine
  /-- Nothing, provided that the pattern comes next. -/
  | ahead (p : Pattern R)
  /-- Nothing, provided that the pattern does not come next. -/
  | notAhead (p : Pattern R)
  /-- Nothing, provided that the surroundings are of a kind. -/
  | within (holds : Context → Bool)
  /-- The pattern of a rule. -/
  | rule (r : R)
  /-- All the patterns, one after the other. -/
  | sequence (ps : List (Pattern R))
  /-- The first of the patterns that fits. -/
  | choice (ps : List (Pattern R))
  /-- The pattern as often as it fits. -/
  | many (p : Pattern R)
  /-- The pattern, its nodes being the children of one node. -/
  | node (kind : Kind) (p : Pattern R)
  /-- The pattern, its nodes playing a role. -/
  | role (r : Role) (p : Pattern R)
  /-- The pattern, in other surroundings. -/
  | inside (context : Context) (p : Pattern R)
  /-- The pattern, provided that its nodes are of a kind. -/
  | provided (holds : List Node → Bool) (p : Pattern R)
  /-- The nodes that are being extended; no token is taken. -/
  | operand
  /-- The pattern and then, if it fits, an extension of it. -/
  | extend (p extension : Pattern R)
  /-- The pattern, extended as often as the extension fits. -/
  | extendMany (p extension : Pattern R)

/-- What has been read from a row of tokens. -/
structure Match where
  /-- The nodes, in order. -/
  nodes : List Node
  /-- The bytes from the first token read to the last, if any was. -/
  span : Option Span
  /-- The tokens that are left. -/
  rest : List Token

namespace Match

/-- Nothing read. -/
def nothing (tokens : List Token) : Match := ⟨[], none, tokens⟩

/-- The hull of two spans that may be missing. -/
def hull? : Option Span → Option Span → Option Span
  | none, t => t
  | s, none => s
  | some s, some t => some (s.hull t)

/-- One match and the one that starts where it ended, as one. -/
def followedBy (m later : Match) : Match :=
  ⟨m.nodes ++ later.nodes, hull? m.span later.span, later.rest⟩

/-- The match with its nodes gathered in one. A match without tokens has nothing to gather. -/
def gather (kind : Kind) (m : Match) : Match :=
  { m with nodes := m.span.toList.map fun span => ⟨kind, none, span, m.nodes⟩ }

end Match

namespace Token

/-- Whether the token is a line end. -/
def isLineEnd (t : Token) : Bool := t.cls == .lineEnd

/-- Whether the token ends a statement. -/
def endsStatement (t : Token) : Bool :=
  t.cls == .lineEnd || t.cls == .symbol .semicolon || t.cls == .symbol .null

end Token

namespace Pattern

variable {R : Type}

/-- Reads a pattern at the beginning of a row of tokens, with the given number of steps into the grammar to
spend. The match that is being extended is `left`. -/
def read (grammar : R → Pattern R) :
    Nat → Context → Match → Pattern R → List Token → Option Match
  | 0, _, _, _, _ => none
  | fuel + 1, context, left, p, tokens =>
    match p with
    | token accepts =>
      match tokens.dropWhile Token.isLineEnd with
      | [] => none
      | t :: rest => if accepts t.cls then some ⟨[], some t.span, rest⟩ else none
    | leaf kind accepts =>
      match tokens.dropWhile Token.isLineEnd with
      | [] => none
      | t :: rest =>
        if accepts t.cls then some ⟨[⟨kind, none, t.span, []⟩], some t.span, rest⟩ else none
    | statementEnd =>
      match tokens with
      | [] => none
      | t :: rest => if t.endsStatement then some (.nothing rest) else none
    | sameLine =>
      if context.lineEnds && tokens.head?.any Token.isLineEnd then none else some (.nothing tokens)
    | ahead p => (read grammar fuel context left p tokens).map fun _ => .nothing tokens
    | notAhead p =>
      match read grammar fuel context left p tokens with
      | some _ => none
      | none => some (.nothing tokens)
    | within holds => if holds context then some (.nothing tokens) else none
    | rule r => read grammar fuel context left (grammar r) tokens
    | sequence ps =>
      ps.foldlM (fun m p => (read grammar fuel context left p m.rest).map m.followedBy) (.nothing tokens)
    | choice ps => ps.findSome? fun p => read grammar fuel context left p tokens
    | many p =>
      match read grammar fuel context left p tokens with
      | none => some (.nothing tokens)
      | some m => (read grammar fuel context left (many p) m.rest).map m.followedBy
    | node kind p => (read grammar fuel context left p tokens).map (Match.gather kind)
    | role r p =>
      (read grammar fuel context left p tokens).map fun m => { m with nodes := m.nodes.map (Node.inRole r) }
    | inside inner p => read grammar fuel inner left p tokens
    | provided holds p =>
      (read grammar fuel context left p tokens).filter fun m => holds m.nodes
    | operand => some { left with rest := tokens }
    | extend p extension => do
      let m ← read grammar fuel context left p tokens
      return (read grammar fuel context m extension m.rest).getD m
    | extendMany p extension => do
      let m ← read grammar fuel context left p tokens
      match read grammar fuel context m extension m.rest with
      | none => some m
      | some extended => read grammar fuel context extended (extendMany operand extension) extended.rest

end Pattern

end SuiteReport.Go
