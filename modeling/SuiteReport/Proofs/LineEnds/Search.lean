import SuiteReport.Proofs.LineEnds.Name
import SuiteReport.Proofs.Subtest.Comments
/-!
# The search for sub-tests with carriage returns

Carriage returns before the line feeds of a content move the nodes of its tree. The search goes through the moved tree
as it goes through the tree: the same calls register sub-tests, as the name of a method is a word, and the loops have
the same variables. So there are the same units, nested in the same way. Their names differ by the carriage returns in
texts that are used as they are written, and what documents them is compared apart from all this.

## Main definitions

* `TestUnit.Agrees`, `TestSuite.Agrees`: units and suites that are alike up to relations between their texts.
* `Node.LineName`: whether a node that is a name is on one line.
* `Scope.written`: the texts that the search uses as they are written.
* `Scope.Documents`: whether a comment may document a node.

## Main results

* `TestUnit.Agrees.eq`: units whose texts are the same are the same.
* `subtests_returned`: the sub-tests in a moved tree.
-/

namespace SuiteReport

/-! ### Units that are alike -/

section Agreement

variable {N M C : String → String → Prop}

/-- `Agrees N M C u u'`: the units are nested in the same way, and everywhere the names, the machine names and the
comments are related. -/
inductive TestUnit.Agrees (N M C : String → String → Prop) : TestUnit → TestUnit → Prop
  /-- The texts of the units are related, and the sub-tests are alike. -/
  | unit {name name' machineName machineName' comment comment' : String} {subtests subtests' : List TestUnit}
      (hname : N name name') (hmachine : M machineName machineName') (hcomment : C comment comment')
      (hsubtests : List.Forall₂ (Agrees N M C) subtests subtests') :
      Agrees N M C ⟨name, machineName, comment, subtests⟩ ⟨name', machineName', comment', subtests'⟩

/-- `Agrees N M C s s'`: the suites are of the same file, their descriptions are related, and their units are alike. -/
structure TestSuite.Agrees (N M C : String → String → Prop) (s s' : TestSuite) : Prop where
  /-- The package is the same. -/
  package : s'.package = s.package
  /-- The name is the same. -/
  name : s'.name = s.name
  /-- The descriptions are related; a suite without one counts as described by nothing. -/
  description : C (s.description.getD "") (s'.description.getD "")
  /-- The units are alike. -/
  units : List.Forall₂ (TestUnit.Agrees N M C) s.units s'.units

mutual

/-- Units that are alike are the same if related texts are. -/
theorem TestUnit.Agrees.eq (hN : ∀ a b, N a b → b = a) (hM : ∀ a b, M a b → b = a) (hC : ∀ a b, C a b → b = a) :
    ∀ {u u' : TestUnit}, u.Agrees N M C u' → u' = u
  | _, _, .unit hname hmachine hcomment hsubtests => by
      rw [hN _ _ hname, hM _ _ hmachine, hC _ _ hcomment, TestUnit.Agrees.eq_of_forall₂ hN hM hC hsubtests]

theorem TestUnit.Agrees.eq_of_forall₂ (hN : ∀ a b, N a b → b = a) (hM : ∀ a b, M a b → b = a)
    (hC : ∀ a b, C a b → b = a) :
    ∀ {us us' : List TestUnit}, List.Forall₂ (TestUnit.Agrees N M C) us us' → us' = us
  | _, _, .nil => rfl
  | _, _, .cons h hlater => by
      rw [TestUnit.Agrees.eq hN hM hC h, TestUnit.Agrees.eq_of_forall₂ hN hM hC hlater]

end

/-- Suites that are alike are the same if related texts are and neither is described by an empty text. -/
theorem TestSuite.Agrees.eq {s s' : TestSuite} (h : s.Agrees N M C s') (hN : ∀ a b, N a b → b = a)
    (hM : ∀ a b, M a b → b = a) (hC : ∀ a b, C a b → b = a) (hs : s.description ≠ some "")
    (hs' : s'.description ≠ some "") : s' = s := by
  obtain ⟨package, name, description, units⟩ := s
  obtain ⟨package', name', description', units'⟩ := s'
  obtain ⟨rfl, rfl, hdescription, hunits⟩ := h
  have described : description' = description := by
    have := hC _ _ hdescription
    cases description <;> cases description' <;> simp_all
  obtain rfl := described
  rw [show units' = units from TestUnit.Agrees.eq_of_forall₂ hN hM hC hunits]

end Agreement

namespace Go

open Bytes (moved returned)

variable {content : Bytes} {s s' : Scope} {W : String → Prop} {C : String → String → Prop} {n : Node}
  {bindings bindings' : List LoopBinding}

/-! ### Names on one line -/

/-- Whether a node that is an identifier or a selected name is on one line. -/
def Node.LineName (content : Bytes) (n : Node) : Prop :=
  n.kind = .identifier ∨ n.role = some .fieldName → '\n' ∉ (n.text content).toList

namespace Node

/-- What is on one line has no carriage returns. -/
theorem text_moved_of_line (h : '\n' ∉ (n.text content).toList) :
    (n.moved (Bytes.moved content)).text (returned content) = n.text content := by
  rw [text_moved, returnedText_eq_self h, String.ofList_toList]

theorem Every.child? {P : Node → Prop} (h : n.Every P) {role : Role} {child : Node}
    (hchild : n.child? role = some child) : child.Every P :=
  h.child (mem_of_child? hchild)

theorem Every.part {P : Node → Prop} (h : n.Every P) {part : Node} (hpart : part ∈ n.parts) : part.Every P :=
  h.child (mem_of_mem_parts hpart)

theorem Every.argument {P : Node → Prop} (h : n.Every P) {argument : Node} (hargument : argument ∈ n.arguments) :
    argument.Every P := by
  rw [arguments] at hargument
  cases hlist : n.child? .arguments with
  | none =>
      rw [hlist] at hargument
      cases hargument
  | some list =>
      rw [hlist] at hargument
      exact (h.child? hlist).part hargument

theorem Every.nameArgument? {P : Node → Prop} (h : n.Every P) {name : Node} (hname : n.nameArgument? = some name) :
    name.Every P :=
  h.argument (List.mem_of_getElem? hname)

theorem Every.callbackBody? {P : Node → Prop} (h : n.Every P) {body : Node} (hbody : n.callbackBody? = some body) :
    body.Every P := by
  obtain ⟨callback, hcallback, hbody⟩ := Option.bind_eq_some_iff.1 hbody
  exact (h.argument (List.mem_of_getElem? hcallback)).child? hbody

theorem Every.rangeVariable? {P : Node → Prop} (h : n.Every P) {v : Node} (hv : n.rangeVariable? = some v) :
    v.Every P := by
  obtain ⟨clause, hclause, hv⟩ := Option.bind_eq_some_iff.1 hv
  obtain ⟨left, hleft, hv⟩ := Option.bind_eq_some_iff.1 hv
  have inside : clause ∈ n.children := by
    rw [rangeClause?] at hclause
    exact List.mem_of_find?_eq_some (Option.ite_none_right_eq_some.1 hclause).2
  exact ((h.child inside).child? hleft).part (List.mem_of_getElem? (Option.mem_filter_iff.1 hv).1)

end Node

/-- The same calls register sub-tests: the name of a method is on one line. -/
theorem registers_moved_iff (hcontent : s'.content = returned s.content) (hmethod : s'.runMethod = s.runMethod)
    (hn : n.Every (Node.LineName s.content)) : s'.Registers (n.moved (moved s.content)) ↔ s.Registers n := by
  have keeps := Node.keeps_moved (moved s.content)
  have method : (n.calledMethod?.map (Node.moved (moved s.content))).any (·.text s'.content == s'.runMethod) =
      n.calledMethod?.any (·.text s.content == s.runMethod) := by
    rw [Option.any_map]
    cases hm : n.calledMethod? with
    | none => rfl
    | some method =>
        obtain ⟨function, hfunction, hfield⟩ := Option.bind_eq_some_iff.1 hm
        have every := (hn.child? (Option.mem_filter_iff.1 hfunction).1).child? hfield
        have line := every.root (.inr (by simpa using List.find?_some hfield))
        simp [hcontent, hmethod, Node.text_moved_of_line line]
  rw [Scope.Registers, Scope.Registers, Node.kind_moved, keeps.calledMethod?, keeps.callback?, method, Option.any_map]
  simp

/-! ### Texts that are used and places that are documented -/

/-- The texts that the search uses as they are written at a node: in the name of the sub-test that it registers, and for
the values that it goes through as a loop. -/
def Scope.written (s : Scope) (n : Node) : List String :=
  (if s.Registers n then (n.nameArgument?.map (NameExpression.written s.content)).getD [] else []) ++
    (n.rangeLiteral?.map (NameExpression.writtenElements s.content)).getD []

theorem Scope.mem_written_of_nameArgument? {name : Node} {text : String} (hr : s.Registers n)
    (hname : n.nameArgument? = some name) (h : text ∈ NameExpression.written s.content name) : text ∈ s.written n := by
  rw [Scope.written, if_pos hr, hname]
  exact List.mem_append_left _ h

theorem Scope.mem_written_of_rangeLiteral? {literal : Node} {text : String} (hl : n.rangeLiteral? = some literal)
    (h : text ∈ NameExpression.writtenElements s.content literal) : text ∈ s.written n := by
  rw [Scope.written, hl]
  exact List.mem_append_right _ h

/-- Whether a comment may document the node: a package clause, a function, or a call that registers a sub-test. -/
def Scope.Documents (s : Scope) (n : Node) : Prop :=
  n.kind = .packageClause ∨ n.kind = .functionDeclaration ∨ s.Registers n

instance (s : Scope) (n : Node) : Decidable (s.Documents n) := inferInstanceAs (Decidable (_ ∨ _ ∨ _))

/-- A loop has the variable that it had, with carriage returns in some of its values. -/
theorem rangeBinding?_returned (hn : n.Every (Node.LineName content))
    (hwrites : ∀ literal ∈ n.rangeLiteral?, ∀ text ∈ NameExpression.writtenElements content literal, W text) :
    List.Forall₂ (LoopBinding.Returned W) (n.rangeBinding? content).toList
      ((n.moved (moved content)).rangeBinding? (returned content)).toList := by
  have keeps := Node.keeps_moved (moved content)
  rw [Node.rangeBinding?, Node.rangeBinding?, keeps.rangeLiteral?, keeps.rangeVariable?]
  cases hl : n.rangeLiteral? with
  | none => exact .nil
  | some literal =>
      cases hv : n.rangeVariable? with
      | none => exact .nil
      | some v =>
          have word : v.kind = .identifier := by
            obtain ⟨clause, -, hv⟩ := Option.bind_eq_some_iff.1 hv
            obtain ⟨left, -, hv⟩ := Option.bind_eq_some_iff.1 hv
            exact beq_iff_eq.1 (Option.mem_filter_iff.1 hv).2
          have line := (hn.rangeVariable? hv).root (.inl word)
          refine .cons ⟨Node.text_moved_of_line line, ?_⟩ .nil
          exact NameExpression.elements_returned literal (hwrites literal hl)

/-! ### The search -/

/-- **The sub-tests in a moved tree** are those of the tree, in the same order and nested in the same way. Their names
and machine names have carriage returns in texts that are used as they are written, and what documents them is related
if it is related for every call. -/
theorem subtests_returned (hcontent : s'.content = returned s.content) (hmethod : s'.runMethod = s.runMethod)
    {parent parent' : String} (hn : n.Every (Node.LineName s.content))
    (hwrites : n.Every fun m => ∀ text ∈ s.written m, W text)
    (hcomment : n.Every fun m => s.Documents m → C (s.comment m) (s'.comment (m.moved (moved s.content))))
    (hparent : ReturnedIn (segmentsOf W) parent parent')
    (hbindings : List.Forall₂ (LoopBinding.Returned W) bindings bindings') :
    List.Forall₂ (TestUnit.Agrees (ReturnedIn W) (ReturnedIn (segmentsOf W)) C) (subtests s n parent bindings)
      (subtests s' (n.moved (moved s.content)) parent' bindings') := by
  have keeps := Node.keeps_moved (moved s.content)
  induction n using search_induction s generalizing parent parent' bindings bindings' with
  | registration n hr ih =>
      rw [subtests_of_registers hr, subtests_of_registers ((registers_moved_iff hcontent hmethod hn).2 hr),
        Scope.units, Scope.units, Scope.namesOf, Scope.namesOf, keeps.nameArgument?]
      have names : List.Forall₂ (ReturnedIn W)
          ((n.nameArgument?.map (NameExpression.names s.content bindings)).getD [])
          (((n.nameArgument?.map (Node.moved (moved s.content))).map
            (NameExpression.names s'.content bindings')).getD []) := by
        cases hname : n.nameArgument? with
        | none => exact .nil
        | some name =>
            rw [hcontent]
            exact NameExpression.names_returned hbindings name
              (fun text h => hwrites.root text (Scope.mem_written_of_nameArgument? hr hname h))
              ((hn.nameArgument? hname).mono fun m hm hkind => hm (.inl hkind))
      refine List.rel_map (fun name name' hname => ?_) names
      refine .unit hname (hparent.childMachineName hname) (hcomment.root (.inr (.inr hr))) ?_
      rw [keeps.callbackBody?]
      cases hb : n.callbackBody? with
      | none => exact .nil
      | some body =>
          exact ih body hb (hn.callbackBody? hb) (hwrites.callbackBody? hb) (hcomment.callbackBody? hb)
            (hparent.childMachineName hname) hbindings
  | loop n literal hr hl ih =>
      have hl' : (n.moved (moved s.content)).rangeLiteral? = some (literal.moved (moved s.content)) := by
        rw [keeps.rangeLiteral?, hl, Option.map_some]
      rw [subtests_of_literal hl, subtests_of_literal hl', keeps.child?]
      cases hb : n.child? .body with
      | none => exact .nil
      | some body =>
          have binding := rangeBinding?_returned hn fun literal hl text h =>
            hwrites.root text (Scope.mem_written_of_rangeLiteral? hl h)
          rw [← hcontent] at binding
          exact ih body hb (hn.child? hb) (hwrites.child? hb) (hcomment.child? hb) hparent
            (List.rel_append hbindings binding)
  | plain n hr hl ih =>
      have hr' := mt (registers_moved_iff hcontent hmethod hn).1 hr
      have hl' : (n.moved (moved s.content)).rangeLiteral? = none := by rw [keeps.rangeLiteral?, hl, Option.map_none]
      rw [subtests_of_plain hl hr, subtests_of_plain hl' hr', Node.children_moved, List.flatMap_map]
      have children : List.Forall₂ (fun child later => later = child ∧ child ∈ n.children) n.children n.children :=
        List.forall₂_same.2 fun child hchild => ⟨rfl, hchild⟩
      refine List.rel_flatMap children fun child _ h => ?_
      obtain ⟨rfl, hchild⟩ := h
      exact ih _ hchild (hn.child hchild) (hwrites.child hchild) (hcomment.child hchild) hparent hbindings

/-- **The unit of a function with carriage returns.** It is one of a test function if it was, as its name is on one
line. -/
theorem testFunction?_returned (hcontent : s'.content = returned s.content) (hmethod : s'.runMethod = s.runMethod)
    (testPrefix : String) (hkind : n.kind = .functionDeclaration)
    (hline : ∀ name ∈ s.functionName? n, '\n' ∉ name.toList) (hn : n.Every (Node.LineName s.content))
    (hwrites : n.Every fun m => ∀ text ∈ s.written m, W text)
    (hcomment : n.Every fun m => s.Documents m → C (s.comment m) (s'.comment (m.moved (moved s.content)))) :
    Option.Rel (TestUnit.Agrees (ReturnedIn W) (ReturnedIn (segmentsOf W)) C) (s.testFunction? testPrefix n)
      (s'.testFunction? testPrefix (n.moved (moved s.content))) := by
  have keeps := Node.keeps_moved (moved s.content)
  have name : s'.functionName? (n.moved (moved s.content)) = s.functionName? n := by
    rw [Scope.functionName?] at hline
    rw [Scope.functionName?, Scope.functionName?, keeps.child?, hcontent]
    cases hname : n.child? .name with
    | none => rfl
    | some name =>
        rw [hname] at hline
        exact congrArg some (Node.text_moved_of_line (hline _ rfl))
  rw [Scope.testFunction?, Scope.testFunction?, name]
  cases s.functionName? n with
  | none => exact .none
  | some name =>
      cases hbegins : testPrefix.toList.isPrefixOf name.toList with
      | false =>
          simp only [hbegins, guard, Bool.false_eq_true, if_false, Option.bind_eq_bind, Option.bind_some]
          exact .none
      | true =>
          simp only [hbegins, guard, if_true, Option.bind_eq_bind, Option.bind_some, Option.pure_def]
          refine .some (.unit (.same name) (.same _) (hcomment.root (.inr (.inl hkind))) ?_)
          rw [Scope.subtestsOf, Scope.subtestsOf, keeps.child?]
          cases hb : n.child? .body with
          | none => exact .nil
          | some body =>
              exact subtests_returned hcontent hmethod (hn.child? hb) (hwrites.child? hb) (hcomment.child? hb)
                (.same name) .nil

end Go

end SuiteReport
