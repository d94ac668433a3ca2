import SuiteReport.Go.CommentBlock
import SuiteReport.Go.NameExpression
import SuiteReport.Suite.Basic
/-!
# Sub-tests

A sub-test is registered by a call of the run method with a name and a function written out in place. Such
calls are looked for everywhere in a body. The body of a loop over a composite literal is searched with the
values of its variable known; the function of a sub-test is searched for sub-tests below it.

## Main definitions

* `Scope`: what is the same for all of a file.
* `Site`: what a node is for the search.
* `subtests`: the sub-tests registered in a node.
-/

namespace SuiteReport.Go

/-- What the search for sub-tests needs to know of a file. -/
structure Scope where
  /-- The content of the file. -/
  content : Bytes
  /-- Its comment blocks. -/
  blocks : List CommentBlock
  /-- The method that registers a sub-test. -/
  runMethod : String
  /-- The most bytes that may lie between a comment and what it documents. -/
  maxCommentGap : Nat

/-- The text of the comment block that documents a node. -/
def Scope.comment (s : Scope) (n : Node) : String :=
  documentation s.blocks (Anchor.ofOffset s.content n.span.start) s.content s.maxCommentGap

/-- What a node is for the search for sub-tests. -/
inductive Site where
  /-- A loop over a composite literal, with its body and the variable that goes through the elements. -/
  | loop (body? : Option Node) (binding? : Option LoopBinding)
  /-- A call that registers a sub-test, with the expression of its name and the body of its function. -/
  | run (name : Node) (body? : Option Node)
  /-- Anything else. -/
  | other

namespace Site

/-- The variable that a range clause declares for the elements: the second name on its left. -/
def elementVariable? (content : Bytes) (clause : Node) : Option String := do
  let left ← clause.child? .left
  let second ← left.parts[1]?
  guard (second.kind = .identifier)
  return second.text content

/-- The loop that a node is, if it goes through the elements of a composite literal. -/
def loop? (content : Bytes) (n : Node) : Option Site := do
  guard (n.kind = .forStatement)
  let clause ← n.children.find? (·.kind == .rangeClause)
  let collection ← clause.child? .right
  guard (collection.kind = .compositeLiteral)
  let binding? := (elementVariable? content clause).map fun name =>
    ⟨name, NameExpression.elements content collection⟩
  return .loop (n.child? .body) binding?

/-- The registration that a node is, if it calls the run method with a name and a function written out. -/
def run? (content : Bytes) (runMethod : String) (n : Node) : Option Site := do
  guard (n.kind = .callExpression)
  let function ← n.child? .function
  guard (function.kind = .selectorExpression)
  let method ← function.child? .fieldName
  let arguments ← n.child? .arguments
  match arguments.parts with
  | name :: callback :: _ =>
    guard (callback.kind = .functionLiteral)
    guard (method.text content = runMethod)
    return .run name (callback.child? .body)
  | _ => none

/-- What a node is for the search. -/
def ofNode (s : Scope) (n : Node) : Site :=
  ((loop? s.content n).orElse fun _ => run? s.content s.runMethod n).getD .other

/-- The body that is searched on its own. -/
def body? : Site → Option Node
  | loop b _ => b
  | run _ b => b
  | other => none

end Site

/-! ### Descent -/

theorem Node.sizeOf_lt_of_mem {n child : Node} (h : child ∈ n.children) : sizeOf child < sizeOf n := by
  obtain ⟨kind, role, span, children⟩ := n
  have : sizeOf child < sizeOf children := List.sizeOf_lt_of_mem h
  simp only [Node.mk.sizeOf_spec]
  omega

theorem Node.mem_of_child? {n child : Node} {role : Role} (h : n.child? role = some child) :
    child ∈ n.children :=
  List.mem_of_find?_eq_some h

theorem Node.mem_of_mem_parts {n part : Node} (h : part ∈ n.parts) : part ∈ n.children :=
  (List.mem_filter.1 h).1

theorem Site.sizeOf_lt_of_loop? {content : Bytes} {n body : Node} {site : Site}
    (h : Site.loop? content n = some site) (hb : site.body? = some body) : sizeOf body < sizeOf n := by
  obtain ⟨_, -, h⟩ := Option.bind_eq_some_iff.1 h
  obtain ⟨clause, -, h⟩ := Option.bind_eq_some_iff.1 h
  obtain ⟨collection, -, h⟩ := Option.bind_eq_some_iff.1 h
  obtain ⟨_, -, hsite⟩ := Option.bind_eq_some_iff.1 h
  obtain rfl := Option.some.inj hsite
  exact Node.sizeOf_lt_of_mem (Node.mem_of_child? hb)

theorem Site.sizeOf_lt_of_run? {content : Bytes} {runMethod : String} {n body : Node} {site : Site}
    (h : Site.run? content runMethod n = some site) (hb : site.body? = some body) :
    sizeOf body < sizeOf n := by
  obtain ⟨_, -, h⟩ := Option.bind_eq_some_iff.1 h
  obtain ⟨function, -, h⟩ := Option.bind_eq_some_iff.1 h
  obtain ⟨_, -, h⟩ := Option.bind_eq_some_iff.1 h
  obtain ⟨method, -, h⟩ := Option.bind_eq_some_iff.1 h
  obtain ⟨arguments, harguments, h⟩ := Option.bind_eq_some_iff.1 h
  split at h
  · rename_i name callback later hparts
    obtain ⟨_, -, h⟩ := Option.bind_eq_some_iff.1 h
    obtain ⟨_, -, hsite⟩ := Option.bind_eq_some_iff.1 h
    obtain rfl := Option.some.inj hsite
    have hcallback : callback ∈ arguments.parts := by simp [hparts]
    have := Node.sizeOf_lt_of_mem (Node.mem_of_child? harguments)
    have := Node.sizeOf_lt_of_mem (Node.mem_of_mem_parts hcallback)
    have := Node.sizeOf_lt_of_mem (Node.mem_of_child? hb)
    omega
  · cases h

theorem Site.sizeOf_body_lt {s : Scope} {n body : Node} (h : (Site.ofNode s n).body? = some body) :
    sizeOf body < sizeOf n := by
  unfold Site.ofNode at h
  cases hl : Site.loop? s.content n with
  | some site =>
    simp only [hl, Option.orElse_some, Option.getD_some] at h
    exact Site.sizeOf_lt_of_loop? hl h
  | none =>
    cases hr : Site.run? s.content s.runMethod n with
    | some site =>
      simp only [hl, hr, Option.orElse_none, Option.getD_some] at h
      exact Site.sizeOf_lt_of_run? hr h
    | none =>
      simp only [hl, hr, Option.orElse_none, Option.getD_none] at h
      cases h

/-- The sub-tests registered in a node, in the order of the source, below the unit with machine name
`parent`. The bindings are the loop variables with known values, from the outermost to the innermost. A loop
over a composite literal counts for its body alone, and a registration for the body of its function. -/
def subtests (s : Scope) (n : Node) (parent : String) (bindings : List LoopBinding) : List TestUnit :=
  match _h : Site.ofNode s n with
  | .loop none _ => []
  | .loop (some body) binding? => subtests s body parent (bindings ++ binding?.toList)
  | .run name none =>
    (NameExpression.names s.content bindings name).map fun name =>
      TestUnit.child parent name (s.comment n) []
  | .run name (some body) =>
    (NameExpression.names s.content bindings name).map fun name =>
      TestUnit.child parent name (s.comment n) (subtests s body (childMachineName parent name) bindings)
  | .other => n.children.attach.flatMap fun child => subtests s child.1 parent bindings
termination_by sizeOf n
decreasing_by
  · exact Site.sizeOf_body_lt (by rw [_h]; rfl)
  · exact Site.sizeOf_body_lt (by rw [_h]; rfl)
  · exact Node.sizeOf_lt_of_mem child.2

end SuiteReport.Go
