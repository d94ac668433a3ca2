import SuiteReport.Go.Subtest
/-!
# Registrations in a body

The search for sub-tests is a recursion that stops at registrations and goes into loops over composite
literals only by their bodies. This module says which calls it meets without following it: a body is laid out
as the list of all its occurrences, in the order of the source, each with the way to it, and the registrations
are those occurrences of calls of the run method whose way is open.

## Main definitions

* `Node.occurrences`: a node and everything below it, each with the way to it.
* `Scope.Registers`: whether a call registers a sub-test.
* `Descent.Open`: whether the search takes a step down the tree.
* `Scope.registrations`: the registrations in a body.
* `Node.Keeps`: changes to a tree that leave in place what the search looks at.
* `Occurrence.bindings`: the loop variables that the way to an occurrence passes.

## Main results

* `Scope.gather_of_registers`, `Scope.gather_of_literal`, `Scope.gather_of_plain`: how the registrations of a
  node come about from those of its children, for anything that is gathered over them.
-/

namespace SuiteReport.Go

/-! ### Occurrences -/

/-- A step down a tree: a node, and the number of the child that the way goes on with, counted from zero. -/
structure Descent where
  /-- The node. -/
  node : Node
  /-- The number of the child. -/
  index : Nat

/-- An occurrence of a node in a tree: the steps from the root down to it, outermost first, and the node. -/
structure Occurrence where
  /-- The way to the node. -/
  path : List Descent
  /-- The node. -/
  node : Node

/-- The occurrence as it is seen from one step further up. -/
def Occurrence.below (d : Descent) (o : Occurrence) : Occurrence := ⟨d :: o.path, o.node⟩

namespace Node

mutual

/-- The node and everything below it, in the order of the source, each with the way to it. -/
def occurrences : Node → List Occurrence
  | ⟨kind, role, span, children⟩ =>
    ⟨[], ⟨kind, role, span, children⟩⟩ :: occurrencesFrom ⟨kind, role, span, children⟩ 0 children

/-- What occurs in the children of `n` from the given number on. -/
def occurrencesFrom (n : Node) (index : Nat) : List Node → List Occurrence
  | [] => []
  | child :: later =>
    child.occurrences.map (Occurrence.below ⟨n, index⟩) ++ occurrencesFrom n (index + 1) later

end

/-- A tree is laid out as its root and then its children, one after the other. -/
theorem occurrences_eq (n : Node) : n.occurrences = ⟨[], n⟩ :: occurrencesFrom n 0 n.children := by
  cases n
  rw [occurrences]

end Node

/-! ### Calls and loops -/

namespace Node

/-- The arguments of a call, without comments. -/
def arguments (n : Node) : List Node := ((n.child? .arguments).map parts).getD []

/-- The argument of a registration that names the sub-test. -/
def nameArgument? (n : Node) : Option Node := n.arguments[0]?

/-- The argument of a registration that is run as the sub-test. -/
def callback? (n : Node) : Option Node := n.arguments[1]?

/-- The body of the function that is run as the sub-test. -/
def callbackBody? (n : Node) : Option Node := n.callback?.bind (·.child? .body)

/-- The method that a call names after the dot, if the call has the form of a selection. -/
def calledMethod? (n : Node) : Option Node :=
  ((n.child? .function).filter (·.kind == .selectorExpression)).bind (·.child? .fieldName)

/-- The range clause of a loop. -/
def rangeClause? (n : Node) : Option Node :=
  if n.kind = .forStatement then n.children.find? (·.kind == .rangeClause) else none

/-- The composite literal that a loop goes through. -/
def rangeLiteral? (n : Node) : Option Node :=
  n.rangeClause?.bind fun clause => (clause.child? .right).filter (·.kind == .compositeLiteral)

/-- The variable for the elements of a loop: what stands second on the left, if it is an identifier. -/
def rangeVariable? (n : Node) : Option Node :=
  n.rangeClause?.bind fun clause =>
    (clause.child? .left).bind fun left => left.parts[1]?.filter (·.kind == .identifier)

/-- What a loop over a composite literal makes known of its variable. -/
def rangeBinding? (content : Bytes) (n : Node) : Option LoopBinding :=
  n.rangeLiteral?.bind fun literal =>
    n.rangeVariable?.map fun v => ⟨v.text content, NameExpression.elements content literal⟩

/-- The number of the child that is the body. -/
def bodyIndex? (n : Node) : Option Nat := n.children.findIdx? (·.role == some .body)

/-! ### Changes to a tree that the search does not see -/

/-- `Keeps change`: the changed node has the changed children in the places where the search looks for them. -/
structure Keeps (change : Node → Node) : Prop where
  /-- The construct is the same. -/
  kind (n : Node) : (change n).kind = n.kind
  /-- The children in roles are there. -/
  child? (n : Node) (role : Role) : (change n).child? role = (n.child? role).map change
  /-- The children that count are there. -/
  parts (n : Node) : (change n).parts = n.parts.map change
  /-- The range clause is there. -/
  range (n : Node) :
    (change n).children.find? (·.kind == .rangeClause) = (n.children.find? (·.kind == .rangeClause)).map change

namespace Keeps

variable {change : Node → Node}

theorem arguments (h : Keeps change) (n : Node) : (change n).arguments = n.arguments.map change := by
  rw [Node.arguments, Node.arguments, h.child?]
  cases n.child? .arguments with
  | none => rfl
  | some list => simp [h.parts]

theorem nameArgument? (h : Keeps change) (n : Node) : (change n).nameArgument? = n.nameArgument?.map change := by
  rw [Node.nameArgument?, Node.nameArgument?, h.arguments, List.getElem?_map]

theorem callback? (h : Keeps change) (n : Node) : (change n).callback? = n.callback?.map change := by
  rw [Node.callback?, Node.callback?, h.arguments, List.getElem?_map]

theorem callbackBody? (h : Keeps change) (n : Node) : (change n).callbackBody? = n.callbackBody?.map change := by
  rw [Node.callbackBody?, Node.callbackBody?, h.callback?]
  cases n.callback? with
  | none => rfl
  | some callback => exact h.child? callback .body

/-- A kind is asked for before and after the change. -/
theorem filter_kind (h : Keeps change) (kind : Kind) (found : Option Node) :
    (found.map change).filter (·.kind == kind) = (found.filter (·.kind == kind)).map change := by
  cases found with
  | none => rfl
  | some n => by_cases hn : n.kind = kind <;> simp [Option.filter, h.kind, hn]

theorem calledMethod? (h : Keeps change) (n : Node) : (change n).calledMethod? = n.calledMethod?.map change := by
  rw [Node.calledMethod?, Node.calledMethod?, h.child?, h.filter_kind]
  cases (n.child? .function).filter (·.kind == .selectorExpression) with
  | none => rfl
  | some function => exact h.child? function .fieldName

theorem rangeClause? (h : Keeps change) (n : Node) : (change n).rangeClause? = n.rangeClause?.map change := by
  rw [Node.rangeClause?, Node.rangeClause?, h.kind]
  split
  · exact h.range n
  · rfl

theorem rangeLiteral? (h : Keeps change) (n : Node) : (change n).rangeLiteral? = n.rangeLiteral?.map change := by
  rw [Node.rangeLiteral?, Node.rangeLiteral?, h.rangeClause?]
  cases n.rangeClause? with
  | none => rfl
  | some clause => simp [h.child?, h.filter_kind]

theorem rangeVariable? (h : Keeps change) (n : Node) : (change n).rangeVariable? = n.rangeVariable?.map change := by
  rw [Node.rangeVariable?, Node.rangeVariable?, h.rangeClause?]
  cases n.rangeClause? with
  | none => rfl
  | some clause =>
      rw [Option.map_some, Option.bind_some, Option.bind_some, h.child?]
      cases clause.child? .left with
      | none => rfl
      | some left => simp [h.parts, h.filter_kind]

end Keeps

end Node

/-- Whether a node registers a sub-test: it calls the run method by a selection, with at least two arguments
of which the second is a function written out. -/
def Scope.Registers (s : Scope) (n : Node) : Prop :=
  n.kind = .callExpression ∧ n.calledMethod?.any (·.text s.content == s.runMethod) ∧
    n.callback?.any (·.kind == .functionLiteral)

instance (s : Scope) (n : Node) : Decidable (s.Registers n) := inferInstanceAs (Decidable (_ ∧ _))

/-- Whether the search takes a step down: it does not leave a registration, and it leaves a loop over a
composite literal only for the body of the loop. -/
def Descent.Open (s : Scope) (d : Descent) : Prop :=
  ¬ s.Registers d.node ∧ (d.node.rangeLiteral?.isSome → d.node.bodyIndex? = some d.index)

instance (s : Scope) (d : Descent) : Decidable (d.Open s) := inferInstanceAs (Decidable (_ ∧ (_ → _)))

/-- Whether an occurrence is a registration that the search meets. -/
def Occurrence.Met (s : Scope) (o : Occurrence) : Prop := s.Registers o.node ∧ ∀ d ∈ o.path, d.Open s

instance (s : Scope) (o : Occurrence) : Decidable (o.Met s) := inferInstanceAs (Decidable (_ ∧ _))

/-- The registrations in a body that are not inside another registration and not in a part of a loop over a
composite literal that is not its body, in the order of the source. -/
def Scope.registrations (s : Scope) (body : Node) : List Occurrence :=
  body.occurrences.filter (·.Met s)

/-- The registrations in a body are the occurrences in it that the search meets. -/
theorem Scope.mem_registrations {s : Scope} {body : Node} {o : Occurrence} :
    o ∈ s.registrations body ↔ o ∈ body.occurrences ∧ o.Met s := by
  simp [Scope.registrations]

/-- The loop variables that the way to an occurrence passes, from the outermost to the innermost. -/
def Occurrence.bindings (content : Bytes) (o : Occurrence) : List LoopBinding :=
  o.path.filterMap (·.node.rangeBinding? content)

/-! ### Gathering over registrations -/

/-- One step further up, it is the same node that occurs. -/
@[simp] theorem Occurrence.node_below (d : Descent) (o : Occurrence) : (o.below d).node = o.node := rfl

/-- The occurrence one step further up is met exactly if the step is open and it is met from below. -/
theorem Occurrence.met_below {s : Scope} {d : Descent} {o : Occurrence} :
    (o.below d).Met s ↔ d.Open s ∧ o.Met s := by
  simp only [Occurrence.Met, Occurrence.below, List.forall_mem_cons]
  exact and_left_comm

/-- One step further up, the loop variable of the step is the outermost. -/
theorem Occurrence.bindings_below (content : Bytes) (d : Descent) (o : Occurrence) :
    (o.below d).bindings content = (d.node.rangeBinding? content).toList ++ o.bindings content := by
  simp only [Occurrence.bindings, Occurrence.below]
  cases h : d.node.rangeBinding? content <;> simp [h]

/-- What an entry for each registration makes up, where the entry sees the variables known at the body and
those of the loops around the registration. -/
def Scope.gather {α : Type} (s : Scope) (entry : List LoopBinding → Node → List α)
    (bindings : List LoopBinding) (body : Node) : List α :=
  (s.registrations body).flatMap fun o => entry (bindings ++ o.bindings s.content) o.node

section Gather

variable {α : Type} {s : Scope} {entry : List LoopBinding → Node → List α} {bindings : List LoopBinding}
  {n : Node}

/-- What is gathered over children that stand below one node, from the given number on: what is gathered over
each child that an open step leads to. -/
theorem gather_occurrencesFrom (index : Nat) (children : List Node) :
    (((n.occurrencesFrom index children).filter (·.Met s)).flatMap fun o =>
        entry (bindings ++ o.bindings s.content) o.node) =
      (children.zipIdx index).flatMap fun c =>
        if Descent.Open s ⟨n, c.2⟩ then
          s.gather entry (bindings ++ (n.rangeBinding? s.content).toList) c.1
        else [] := by
  induction children generalizing index with
  | nil => rfl
  | cons child later ih =>
      rw [Node.occurrencesFrom, List.filter_append, List.flatMap_append, ih, List.zipIdx_cons,
        List.flatMap_cons]
      congr 1
      rw [List.filter_map, List.flatMap_map]
      by_cases h : Descent.Open s ⟨n, index⟩
      · simp [Function.comp_def, Occurrence.met_below, h, Scope.gather, Scope.registrations,
          Occurrence.bindings_below]
      · simp [Function.comp_def, Occurrence.met_below, h]

/-- Of the children from the given number on, only one is numbered as the first child with a property: that
child. -/
theorem flatMap_zipIdx_findIdx? {β : Type} (p : Node → Bool) (f : Node → List β) (index : Nat)
    (children : List Node) :
    ((children.zipIdx index).flatMap fun c =>
        if (children.findIdx? p).map (· + index) = some c.2 then f c.1 else []) =
      ((children.find? p).map f).getD [] := by
  induction children generalizing index with
  | nil => rfl
  | cons child later ih =>
      rw [List.zipIdx_cons, List.flatMap_cons, List.findIdx?_cons, List.find?_cons]
      cases hp : p child with
      | true =>
          have later_ne : ∀ c ∈ later.zipIdx (index + 1), index ≠ c.2 := by
            rintro ⟨c, i⟩ hc
            have := (List.mem_zipIdx hc).1
            simp only [ne_eq]
            omega
          have rest : ((later.zipIdx (index + 1)).flatMap fun c =>
              if some index = some c.2 then f c.1 else []) = [] := by
            rw [List.flatMap_eq_nil_iff]
            intro c hc
            rw [if_neg]
            simpa using later_ne c hc
          simpa using rest
      | false =>
          rw [← ih (index + 1)]
          cases later.findIdx? p with
          | none => simp
          | some i =>
              have far : i + (index + 1) ≠ index := by omega
              have shift : i + 1 + index = i + (index + 1) := by omega
              simp [shift, far]

/-- What occurs inside a registration is not met. -/
theorem gather_of_registers (h : s.Registers n) : s.gather entry bindings n = entry bindings n := by
  have met : Occurrence.Met s ⟨[], n⟩ := ⟨h, by simp⟩
  have closed : ∀ i, ¬ Descent.Open s ⟨n, i⟩ := fun i ho => ho.1 h
  have inside := @gather_occurrencesFrom _ s entry bindings n 0 n.children
  simp only [closed, if_false] at inside
  rw [Scope.gather, Scope.registrations]
  rw [n.occurrences_eq, List.filter_cons_of_pos (by simpa using met), List.flatMap_cons, inside]
  simp [Occurrence.bindings]

/-- A node that is no registration adds nothing to what is gathered below it. -/
theorem gather_of_not_registers (h : ¬ s.Registers n) :
    s.gather entry bindings n = n.children.zipIdx.flatMap fun c =>
      if Descent.Open s ⟨n, c.2⟩ then
        s.gather entry (bindings ++ (n.rangeBinding? s.content).toList) c.1
      else [] := by
  have unmet : ¬ Occurrence.Met s ⟨[], n⟩ := fun hm => h hm.1
  rw [Scope.gather, Scope.registrations, n.occurrences_eq, List.filter_cons_of_neg (by simpa using unmet),
    gather_occurrencesFrom]

/-- Of a loop over a composite literal only the body counts, and there its variable is known. -/
theorem gather_of_literal (h : n.rangeLiteral?.isSome) (hr : ¬ s.Registers n) :
    s.gather entry bindings n =
      ((n.child? .body).map (s.gather entry (bindings ++ (n.rangeBinding? s.content).toList))).getD [] := by
  rw [gather_of_not_registers hr, Node.child?, ← flatMap_zipIdx_findIdx? _ _ 0]
  simp [Descent.Open, hr, h, Node.bodyIndex?]

/-- Of any other node all children count. -/
theorem gather_of_plain (h : n.rangeLiteral? = none) (hr : ¬ s.Registers n) :
    s.gather entry bindings n = n.children.flatMap (s.gather entry bindings) := by
  have binding : n.rangeBinding? s.content = none := by rw [Node.rangeBinding?, h]; rfl
  have numbered : (n.children.zipIdx.flatMap fun c => s.gather entry bindings c.1) =
      n.children.flatMap (s.gather entry bindings) := by
    rw [← List.flatMap_map]
    simp
  rw [gather_of_not_registers hr, ← numbered]
  simp [Descent.Open, hr, h, binding]

end Gather

end SuiteReport.Go
