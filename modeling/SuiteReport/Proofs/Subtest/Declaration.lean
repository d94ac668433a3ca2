import Mathlib.Data.List.Basic
import Mathlib.Data.Option.Basic
import SuiteReport.Proofs.Subtest.Registration
/-!
# Sub-tests by declaration

The sub-tests below a body can be said in one sentence, without following the search: each registration that
is met in the body contributes one unit for each name that its name expression stands for, and the sub-tests
of the unit are those declared in the function of the registration. This module states that sentence as a
definition and proves that the search finds exactly the units it describes, in the same order.

## Main definitions

* `Scope.units`: the units of one registration.
* `declaredSubtests`: the sub-tests below a body, by declaration.

## Main results

* `search_induction`: induction along the search.
* `subtests_eq_gather`: one level of the sentence, for the units that the search finds.
* `subtests_eq_declaredSubtests`: the search finds what is declared.
-/

namespace SuiteReport.Go

variable {s : Scope} {n : Node}

/-! ### What a node is for the search -/

/-- A registration is no loop. -/
theorem Node.rangeLiteral?_eq_none (h : s.Registers n) : n.rangeLiteral? = none := by
  simp [Node.rangeLiteral?, Node.rangeClause?, h.1]

/-- A registration has an argument that names the sub-test. -/
theorem Node.exists_nameArgument? (h : s.Registers n) : ∃ name, n.nameArgument? = some name := by
  have second := h.2.2
  rw [Node.callback?] at second
  rw [Node.nameArgument?]
  cases hn : n.arguments with
  | nil => simp [hn] at second
  | cons name later => exact ⟨name, rfl⟩

/-- The variable for the elements is what stands second on the left, if it is an identifier. -/
theorem Site.elementVariable?_eq (content : Bytes) (clause : Node) :
    Site.elementVariable? content clause =
      ((clause.child? .left).bind fun left => left.parts[1]?.filter (·.kind == .identifier)).map
        (·.text content) := by
  rw [Site.elementVariable?]
  cases clause.child? .left with
  | none => rfl
  | some left =>
      cases hv : left.parts[1]? with
      | none => simp [hv]
      | some v => by_cases hi : v.kind = .identifier <;> simp [hv, hi, guard, Option.filter]

/-- A loop counts as one over a composite literal if what it goes through is one. -/
theorem Site.loop?_eq (content : Bytes) (n : Node) :
    Site.loop? content n =
      n.rangeLiteral?.map fun _ => .loop (n.child? .body) (n.rangeBinding? content) := by
  rw [Site.loop?, Node.rangeBinding?, Node.rangeVariable?, Node.rangeLiteral?, Node.rangeClause?]
  by_cases hk : n.kind = .forStatement
  · cases hc : n.children.find? (·.kind == .rangeClause) with
    | none => simp [hk]
    | some clause =>
        cases hr : clause.child? .right with
        | none => simp [hk, hr]
        | some literal =>
            by_cases hl : literal.kind = .compositeLiteral <;>
              simp [hk, hr, hl, guard, Site.elementVariable?_eq, Function.comp_def, Option.filter]
  · simp only [hk, guard_false]
    rfl

/-- A call counts as a registration if it registers a sub-test, with its name expression and the body of its
function. -/
theorem Site.run?_eq (s : Scope) (n : Node) :
    Site.run? s.content s.runMethod n =
      if s.Registers n then n.nameArgument?.map fun name => .run name n.callbackBody? else none := by
  unfold Site.run? Scope.Registers Node.calledMethod? Node.nameArgument? Node.callbackBody? Node.callback?
    Node.arguments
  by_cases hk : n.kind = .callExpression
  · obtain hf | ⟨function, hf⟩ := (n.child? .function).eq_none_or_eq_some
    · simp [hf]
    · by_cases hs : function.kind = .selectorExpression
      · obtain hm | ⟨method, hm⟩ := (function.child? .fieldName).eq_none_or_eq_some
        · simp [hf, hs, hm, Option.filter]
        · obtain ha | ⟨arguments, ha⟩ := (n.child? .arguments).eq_none_or_eq_some
          · simp [ha]
          · rcases hp : arguments.parts with - | ⟨name, - | ⟨callback, later⟩⟩
            · simp [ha, hp]
            · simp [ha, hp]
            · by_cases hc : callback.kind = .functionLiteral <;>
                by_cases ht : method.text s.content = s.runMethod <;>
                simp [hk, hf, hs, hm, ha, hp, hc, ht, guard, Option.filter]
      · simp [hf, hs, guard, Option.filter]
  · simp only [hk, guard_false]
    rfl

/-- What a loop over a composite literal is for the search. -/
theorem Site.ofNode_of_literal {literal : Node} (h : n.rangeLiteral? = some literal) :
    Site.ofNode s n = .loop (n.child? .body) (n.rangeBinding? s.content) := by
  simp [Site.ofNode, Site.loop?_eq, h]

/-- What a registration is for the search. -/
theorem Site.ofNode_of_registers {name : Node} (h : s.Registers n) (hn : n.nameArgument? = some name) :
    Site.ofNode s n = .run name n.callbackBody? := by
  simp [Site.ofNode, Site.loop?_eq, Site.run?_eq, Node.rangeLiteral?_eq_none h, h, hn]

/-- What every other node is for the search. -/
theorem Site.ofNode_of_plain (h : n.rangeLiteral? = none) (hr : ¬ s.Registers n) :
    Site.ofNode s n = .other := by
  simp [Site.ofNode, Site.loop?_eq, Site.run?_eq, h, hr]

/-- The body of the function of a call lies inside the call. -/
theorem Node.sizeOf_callbackBody?_lt {n body : Node} (h : n.callbackBody? = some body) :
    sizeOf body < sizeOf n := by
  obtain ⟨callback, hc, hb⟩ := Option.bind_eq_some_iff.1 h
  have hb := Node.sizeOf_lt_of_mem (Node.mem_of_child? hb)
  rw [Node.callback?, Node.arguments] at hc
  cases ha : n.child? .arguments with
  | none => simp [ha] at hc
  | some arguments =>
      have hmem : callback ∈ arguments.parts := List.mem_of_getElem? (by simpa [ha] using hc)
      have ha := Node.sizeOf_lt_of_mem (Node.mem_of_child? ha)
      have hc := Node.sizeOf_lt_of_mem (Node.mem_of_mem_parts hmem)
      omega

/-- **Induction along the search.** What holds of a registration as soon as it holds of the body of its function, of a
loop over a composite literal as soon as it holds of the body of the loop, and of every other node as soon as it holds
of its children, holds of all nodes. -/
theorem search_induction (s : Scope) {motive : Node → Prop}
    (registration : ∀ n, s.Registers n → (∀ body, n.callbackBody? = some body → motive body) → motive n)
    (loop : ∀ n literal, ¬ s.Registers n → n.rangeLiteral? = some literal →
      (∀ body, n.child? .body = some body → motive body) → motive n)
    (plain : ∀ n, ¬ s.Registers n → n.rangeLiteral? = none → (∀ child ∈ n.children, motive child) → motive n)
    (n : Node) : motive n := by
  induction hk : sizeOf n using Nat.strongRecOn generalizing n with
  | ind k ih =>
      subst hk
      by_cases hr : s.Registers n
      · exact registration n hr fun body hb => ih _ (Node.sizeOf_callbackBody?_lt hb) body rfl
      cases hl : n.rangeLiteral? with
      | some literal =>
          exact loop n literal hr hl fun body hb => ih _ (Node.sizeOf_lt_of_mem (Node.mem_of_child? hb)) body rfl
      | none => exact plain n hr hl fun child hchild => ih _ (Node.sizeOf_lt_of_mem hchild) child rfl

/-! ### The search, node by node -/

/-- The names that a registration stands for where the given variables are known. -/
def Scope.namesOf (s : Scope) (scope : List LoopBinding) (call : Node) : List String :=
  (call.nameArgument?.map (NameExpression.names s.content scope)).getD []

/-- The unit that a registration contributes for one name, with the sub-tests in its function. -/
def Scope.unit (s : Scope) (parent : String) (scope : List LoopBinding) (call : Node) (name : String) :
    TestUnit :=
  TestUnit.child parent name (s.comment call)
    ((call.callbackBody?.map fun body => subtests s body (childMachineName parent name) scope).getD [])

/-- The units that a registration contributes, one for each name. -/
def Scope.units (s : Scope) (parent : String) (scope : List LoopBinding) (call : Node) : List TestUnit :=
  (s.namesOf scope call).map (s.unit parent scope call)

/-- The search at a node, by what the node is for it. -/
theorem subtests_eq (s : Scope) (n : Node) (parent : String) (bindings : List LoopBinding) :
    subtests s n parent bindings =
      match Site.ofNode s n with
      | .loop body? binding? =>
          (body?.map fun body => subtests s body parent (bindings ++ binding?.toList)).getD []
      | .run name body? =>
          (NameExpression.names s.content bindings name).map fun name =>
            TestUnit.child parent name (s.comment n)
              ((body?.map fun body => subtests s body (childMachineName parent name) bindings).getD [])
      | .other => n.children.flatMap fun child => subtests s child parent bindings := by
  rw [subtests]
  split <;> simp_all

section Search

variable {parent : String} {bindings : List LoopBinding}

/-- At a registration the search gives its units. -/
theorem subtests_of_registers (h : s.Registers n) :
    subtests s n parent bindings = s.units parent bindings n := by
  obtain ⟨name, hn⟩ := Node.exists_nameArgument? h
  rw [subtests_eq, Site.ofNode_of_registers h hn, Scope.units, Scope.namesOf, hn]
  rfl

/-- Of a loop over a composite literal the search goes on with the body. -/
theorem subtests_of_literal {literal : Node} (h : n.rangeLiteral? = some literal) :
    subtests s n parent bindings =
      ((n.child? .body).map fun body =>
        subtests s body parent (bindings ++ (n.rangeBinding? s.content).toList)).getD [] := by
  rw [subtests_eq, Site.ofNode_of_literal h]

/-- Of every other node the search goes on with all children. -/
theorem subtests_of_plain (h : n.rangeLiteral? = none) (hr : ¬ s.Registers n) :
    subtests s n parent bindings = n.children.flatMap fun child => subtests s child parent bindings := by
  rw [subtests_eq, Site.ofNode_of_plain h hr]

/-- **One level of the search.** The units below a body are those of its registrations, in the order of the
source, where each registration sees the variables of the loops around it. The induction is along the search, with the
bindings free: the body of a loop is searched with one more. -/
theorem subtests_eq_gather : subtests s n parent bindings = s.gather (s.units parent) bindings n := by
  induction n using search_induction s generalizing bindings with
  | registration n hr _ => rw [subtests_of_registers hr, gather_of_registers hr]
  | loop n literal hr hl ih =>
      rw [subtests_of_literal hl, gather_of_literal (by simp [hl]) hr]
      cases hb : n.child? .body with
      | none => rfl
      | some body => exact ih body hb
  | plain n hr hl ih =>
      rw [subtests_of_plain hl hr, gather_of_plain hl hr]
      exact List.flatMap_congr fun child hchild => ih child hchild

end Search

/-! ### Declared sub-tests -/

mutual

/-- Whatever occurs in a node is at most as large as the node. -/
theorem Node.sizeOf_le_of_mem_occurrences :
    ∀ {n : Node} {o : Occurrence}, o ∈ n.occurrences → sizeOf o.node ≤ sizeOf n
  | ⟨kind, role, span, children⟩, o, h => by
      rw [Node.occurrences, List.mem_cons] at h
      rcases h with rfl | h
      · exact Nat.le_refl _
      · have := Node.sizeOf_lt_of_mem_occurrencesFrom h
        simp only [Node.mk.sizeOf_spec]
        omega

/-- Whatever occurs in some nodes is smaller than their list. -/
theorem Node.sizeOf_lt_of_mem_occurrencesFrom :
    ∀ {n : Node} {index : Nat} {children : List Node} {o : Occurrence},
      o ∈ n.occurrencesFrom index children → sizeOf o.node < sizeOf children
  | n, index, child :: later, o, h => by
      rw [Node.occurrencesFrom, List.mem_append, List.mem_map] at h
      rcases h with ⟨o, h, rfl⟩ | h
      · have := Node.sizeOf_le_of_mem_occurrences h
        simp only [Occurrence.node_below, List.cons.sizeOf_spec]
        omega
      · have := Node.sizeOf_lt_of_mem_occurrencesFrom h
        simp only [List.cons.sizeOf_spec]
        omega

end

/-- The body of the function of a registration that a body declares lies inside that body. -/
theorem Scope.sizeOf_callbackBody?_lt {body inner : Node} {o : Occurrence} (ho : o ∈ s.registrations body)
    (h : o.node.callbackBody? = some inner) : sizeOf inner < sizeOf body :=
  Nat.lt_of_lt_of_le (Node.sizeOf_callbackBody?_lt h)
    (Node.sizeOf_le_of_mem_occurrences (Scope.mem_registrations.1 ho).1)

/-- The sub-tests that a body declares below the unit with machine name `parent`, where the given variables
are known. Each registration in the body contributes one unit for each name that its name expression stands
for where, besides, the variables of the loops around it are known. The sub-tests of the unit are those
declared in the function of the registration, below the unit's own machine name and with the same variables
known. -/
def declaredSubtests (s : Scope) (body : Node) (parent : String) (bindings : List LoopBinding) :
    List TestUnit :=
  (s.registrations body).attach.flatMap fun ⟨o, _ho⟩ =>
    let scope := bindings ++ o.bindings s.content
    (s.namesOf scope o.node).map fun name =>
      { name
        machineName := parent ++ "/" ++ machineSegment name
        comment := s.comment o.node
        subtests :=
          match _h : o.node.callbackBody? with
          | none => []
          | some inner => declaredSubtests s inner (parent ++ "/" ++ machineSegment name) scope }
termination_by sizeOf body
decreasing_by exact Scope.sizeOf_callbackBody?_lt _ho _h

/-- One level of the declaration. -/
theorem declaredSubtests_eq_gather (s : Scope) (body : Node) (parent : String) (bindings : List LoopBinding) :
    declaredSubtests s body parent bindings =
      s.gather (fun scope call => (s.namesOf scope call).map fun name =>
        TestUnit.child parent name (s.comment call)
          ((call.callbackBody?.map fun inner =>
            declaredSubtests s inner (childMachineName parent name) scope).getD [])) bindings body := by
  rw [declaredSubtests, Scope.gather]
  conv_rhs => rw [← List.attach_map_subtype_val (s.registrations body), List.flatMap_map]
  refine List.flatMap_congr ?_
  rintro ⟨o, ho⟩ -
  refine List.map_congr_left ?_
  intro name _
  rw [TestUnit.child]
  congr 1
  split
  · rename_i h
    rw [h]
    rfl
  · rename_i inner h
    rw [h]
    rfl

/-- **The search finds what is declared.** For every body, every parent and all known variables, the search for
sub-tests gives exactly the declared units, in the same order. -/
theorem subtests_eq_declaredSubtests (s : Scope) (body : Node) (parent : String)
    (bindings : List LoopBinding) :
    subtests s body parent bindings = declaredSubtests s body parent bindings := by
  induction hk : sizeOf body using Nat.strongRecOn generalizing body parent bindings with
  | ind k ih =>
      subst hk
      rw [subtests_eq_gather, declaredSubtests_eq_gather, Scope.gather, Scope.gather]
      refine List.flatMap_congr ?_
      intro o ho
      refine List.map_congr_left ?_
      intro name _
      rw [Scope.unit]
      cases hb : o.node.callbackBody? with
      | none => rfl
      | some inner =>
          have := ih _ (Scope.sizeOf_callbackBody?_lt ho hb) inner (childMachineName parent name)
            (bindings ++ o.bindings s.content) rfl
          simp only [Option.map_some, Option.getD_some, this]

end SuiteReport.Go
