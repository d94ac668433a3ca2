import SuiteReport.Proofs.Subtest.Choice
/-!
# Loops around a registration

By the rules of the language a loop hides the variables of the loops around it that have the name of one of its
own. The search for sub-tests knows the values of some variables and passes them on to everything further in. This
module compares the two. The innermost loop that declares a variable decides what a registration named by the
variable stands for, as the language has it, if the search knows the values that this loop gives to the variable.
If it does not, because the loop goes through something other than a composite literal or declares the variable
for the index, then the loop hides nothing: the registration stands for what the variable stands for outside the
loop. This differs from the variable itself only if a loop further out gives values to a variable of the same name.

## Main definitions

* `RangeLoop`: a loop with a range clause, by the variables that it declares.
* `Reaches`: a registration at any depth of loops and functions, with the loops around it and its units.
* `Siblings`: the lists of units in a tree.

## Main results

* `Reaches.exists_siblings`, `Reaches.exists_of_siblings`: the units of registrations are those of the tree.
* `names_of_innermostLoop`: what a registration named by a variable stands for, by the innermost loop that
  declares the variable.
-/

namespace SuiteReport.Go

/-! ### Loops and their variables -/

namespace Node

/-- The variables on the left of a range clause. -/
def rangeVariables (content : Bytes) (n : Node) : List String :=
  ((n.rangeClause?.bind (·.child? .left)).map fun left =>
    (left.parts.filter (·.kind == .identifier)).map (·.text content)).getD []

/-- The variable whose values are known is one of those on the left of the clause. -/
theorem mem_rangeVariables_of_rangeBinding? {content : Bytes} {n : Node} {b : LoopBinding}
    (h : n.rangeBinding? content = some b) : b.name ∈ n.rangeVariables content := by
  obtain ⟨literal, -, h⟩ := Option.bind_eq_some_iff.1 h
  obtain ⟨v, hv, hb⟩ := Option.map_eq_some_iff.1 h
  obtain ⟨clause, hclause, hv⟩ := Option.bind_eq_some_iff.1 hv
  obtain ⟨left, hleft, hv⟩ := Option.bind_eq_some_iff.1 hv
  obtain ⟨hat, hk⟩ := Option.filter_eq_some_iff.1 hv
  have hvars : n.rangeVariables content =
      (left.parts.filter (·.kind == .identifier)).map (·.text content) := by
    simp [rangeVariables, hclause, hleft]
  rw [hvars, ← hb]
  exact List.mem_map_of_mem (List.mem_filter.2 ⟨List.mem_of_getElem? hat, hk⟩)

end Node

/-- A loop with a range clause: the variables that it declares, and the values of one of them where they are
known. -/
structure RangeLoop where
  /-- The variables on the left of the range clause. -/
  declared : List String
  /-- The variable for the elements, if the loop goes through those of a composite literal. -/
  binding? : Option LoopBinding
  /-- Values are known of declared variables only. -/
  known : ∀ b ∈ binding?, b.name ∈ declared
deriving DecidableEq

namespace RangeLoop

/-- The values that the loop is known to give to a variable. -/
def values? (l : RangeLoop) (v : String) : Option (List String) :=
  (l.binding?.filter (·.name == v)).map LoopBinding.values

/-- A loop gives no values to a variable that it does not declare. -/
theorem values?_of_notMem {l : RangeLoop} {v : String} (h : v ∉ l.declared) : l.values? v = none := by
  rw [values?, Option.map_eq_none_iff, Option.filter_eq_none_iff]
  intro b hb hv
  rw [beq_iff_eq] at hv
  exact h (hv ▸ l.known b hb)

end RangeLoop

/-- The loop whose body a step down a tree leads into. -/
def Descent.rangeLoop? (content : Bytes) (d : Descent) : Option RangeLoop :=
  if d.node.rangeClause?.isSome ∧ d.node.bodyIndex? = some d.index then
    some ⟨d.node.rangeVariables content, d.node.rangeBinding? content,
      fun _ hb => d.node.mem_rangeVariables_of_rangeBinding? hb⟩
  else
    none

/-- The loops around an occurrence, outermost first. -/
def Occurrence.loops (content : Bytes) (o : Occurrence) : List RangeLoop :=
  o.path.filterMap (·.rangeLoop? content)

/-- The search passes a known variable only on a step into the body of its loop. -/
theorem Descent.Open.rangeBinding?_eq {s : Scope} {d : Descent} (h : d.Open s) :
    d.node.rangeBinding? s.content = (d.rangeLoop? s.content).bind RangeLoop.binding? := by
  rw [Descent.rangeLoop?]
  split
  next => rfl
  next hnone =>
      cases hl : d.node.rangeLiteral? with
      | none => rw [Node.rangeBinding?, hl]; rfl
      | some literal =>
          obtain ⟨clause, hclause, -⟩ := Option.bind_eq_some_iff.1 hl
          exact absurd ⟨by rw [hclause]; rfl, h.2 (by rw [hl]; rfl)⟩ hnone

/-- The variables known at a registration are those of the loops around it. -/
theorem Occurrence.Met.bindings_eq {s : Scope} {o : Occurrence} (h : o.Met s) :
    o.bindings s.content = (o.loops s.content).filterMap RangeLoop.binding? := by
  rw [Occurrence.bindings, Occurrence.loops, List.filterMap_filterMap]
  refine List.filterMap_congr ?_
  intro d hd
  exact (h.2 d hd).rangeBinding?_eq

/-! ### Registrations at any depth -/

/-- A registration that the search meets below a body, in the body itself or in the function of another
registration, with the loops around it from the outermost to the innermost, and the units that the search gives
for it. The bindings are the variables known at the body. -/
inductive Reaches (s : Scope) : Node → String → List LoopBinding → List RangeLoop → Node → List TestUnit → Prop
  | here {body : Node} {parent : String} {bindings : List LoopBinding} {o : Occurrence}
      (ho : o ∈ s.registrations body) :
      Reaches s body parent bindings (o.loops s.content) o.node
        (s.units parent (bindings ++ o.bindings s.content) o.node)
  | inside {body inner call : Node} {parent : String} {bindings : List LoopBinding} {o : Occurrence}
      {u : TestUnit} {loops : List RangeLoop} {units : List TestUnit} (ho : o ∈ s.registrations body)
      (hu : u ∈ s.units parent (bindings ++ o.bindings s.content) o.node)
      (hb : o.node.callbackBody? = some inner)
      (rest : Reaches s inner u.machineName (bindings ++ o.bindings s.content) loops call units) :
      Reaches s body parent bindings (o.loops s.content ++ loops) call units

/-- The lists of units in a tree: that of its roots, and the sub-tests of every unit in it. -/
inductive Siblings : List TestUnit → List TestUnit → Prop
  | top {units : List TestUnit} : Siblings units units
  | inside {units siblings : List TestUnit} {u : TestUnit} (hu : u ∈ units) (h : Siblings u.subtests siblings) :
      Siblings units siblings

variable {s : Scope} {body call : Node} {parent : String} {bindings : List LoopBinding}
  {loops : List RangeLoop} {units : List TestUnit}

/-- The units of a registration in a body stand side by side among the units below the body. -/
theorem units_isInfix_subtests {o : Occurrence} (ho : o ∈ s.registrations body) :
    s.units parent (bindings ++ o.bindings s.content) o.node <:+: subtests s body parent bindings := by
  obtain ⟨before, after, hsplit⟩ := List.append_of_mem ho
  rw [subtests_eq_gather, Scope.gather, hsplit, List.flatMap_append, List.flatMap_cons, ← List.append_assoc]
  exact List.infix_append _ _ _

/-- The units of a registration stand side by side in the tree. -/
theorem Reaches.exists_siblings (h : Reaches s body parent bindings loops call units) :
    ∃ siblings, Siblings (subtests s body parent bindings) siblings ∧ units <:+: siblings := by
  induction h with
  | here ho => exact ⟨_, .top, units_isInfix_subtests ho⟩
  | inside ho hu hb rest ih =>
      obtain ⟨name, hn⟩ := Node.exists_nameArgument? (Scope.mem_registrations.1 ho).2.1
      obtain ⟨-, hsub⟩ := of_mem_units hn hu
      rw [hb, Option.map_some, Option.getD_some] at hsub
      obtain ⟨siblings, hsiblings, hunits⟩ := ih
      exact ⟨siblings, .inside ((units_isInfix_subtests ho).subset hu) (by rwa [hsub]), hunits⟩

/-- A tree with units in it has roots. -/
theorem Siblings.ne_nil {roots siblings : List TestUnit} {u : TestUnit} (h : Siblings roots siblings)
    (hu : u ∈ siblings) : roots ≠ [] := by
  cases h with
  | top => exact List.ne_nil_of_mem hu
  | inside habove => exact List.ne_nil_of_mem habove

/-- Every unit in the tree is one of a registration. -/
theorem Reaches.exists_of_siblings {siblings : List TestUnit} {u : TestUnit}
    (h : Siblings (subtests s body parent bindings) siblings) (hu : u ∈ siblings) :
    ∃ loops call units, Reaches s body parent bindings loops call units ∧ u ∈ units := by
  generalize hroots : subtests s body parent bindings = roots at h
  induction h generalizing body parent bindings with
  | top =>
      subst hroots
      obtain ⟨o, ho, -, -, hmem⟩ := exists_registration_of_mem_subtests hu
      exact ⟨_, _, _, .here ho, hmem⟩
  | @inside roots siblings above habove h ih =>
      subst hroots
      obtain ⟨o, ho, name, hn, hmem⟩ := exists_registration_of_mem_subtests habove
      have hne : above.subtests ≠ [] := h.ne_nil hu
      obtain ⟨inner, hb, hsub⟩ := exists_callbackBody_of_mem_units hn hmem hne
      obtain ⟨loops, call, units, hreach, hunits⟩ := ih hu hsub.symm
      exact ⟨_, _, _, .inside ho hmem hb hreach, hunits⟩

/-- **What is known at a registration.** The names of its units are those of its name expression where the
variables of the loops around it are known, in the order of the loops. -/
theorem Reaches.names_eq (h : Reaches s body parent bindings loops call units) {name : Node}
    (hn : call.nameArgument? = some name) :
    units.map TestUnit.name =
      NameExpression.names s.content (bindings ++ loops.filterMap RangeLoop.binding?) name := by
  induction h with
  | here ho =>
      rw [(Scope.mem_registrations.1 ho).2.bindings_eq, Scope.units, List.map_map, Scope.namesOf, hn]
      exact List.map_id _
  | inside ho hu hb rest ih =>
      rw [ih hn, (Scope.mem_registrations.1 ho).2.bindings_eq, List.filterMap_append, List.append_assoc]

/-- The names of the units of a registration whose name is a variable. -/
theorem Reaches.names_eq_ofVariable (h : Reaches s body parent [] loops call units) {name : Node} {v : String}
    (hn : call.nameArgument? = some name) (hk : name.kind = .identifier) (hv : name.text s.content = v) :
    units.map TestUnit.name = NameExpression.ofVariable (loops.filterMap RangeLoop.binding?) v := by
  rw [h.names_eq hn, List.nil_append, names_eq_names_ofNode, ← hv]
  obtain ⟨kind, role, span, children⟩ := name
  obtain rfl : kind = .identifier := hk
  rfl

/-! ### The innermost loop that declares a variable -/

/-- A variable that is known further in hides what is known of its name further out. -/
theorem innermost?_append (outer inner : List LoopBinding) (v : String) :
    NameExpression.innermost? (outer ++ inner) v =
      (NameExpression.innermost? inner v).or (NameExpression.innermost? outer v) := by
  rw [NameExpression.innermost?, List.reverse_append, List.find?_append, Option.map_or]
  rfl

/-- Of one loop, what it gives to the variable is known. -/
theorem innermost?_binding? (l : RangeLoop) (v : String) :
    NameExpression.innermost? l.binding?.toList v = l.values? v := by
  rw [NameExpression.innermost?, RangeLoop.values?]
  cases l.binding? with
  | none => rfl
  | some b => by_cases h : b.name = v <;> simp [h, Option.filter]

/-- Nothing is known of a variable that no loop declares. -/
theorem innermost?_eq_none {v : String} (h : ∀ l ∈ loops, v ∉ l.declared) :
    NameExpression.innermost? (loops.filterMap RangeLoop.binding?) v = none := by
  rw [NameExpression.innermost?, Option.map_eq_none_iff, List.find?_eq_none]
  intro b hb hv
  obtain ⟨l, hl, hb⟩ := List.mem_filterMap.1 (List.mem_reverse.1 hb)
  rw [beq_iff_eq] at hv
  exact h l hl (hv ▸ l.known b hb)

/-- Loops further in that do not declare the variable do not matter; the innermost one that does decides if it
is known what it gives to the variable, and if not, what is known outside it. -/
theorem innermost?_of_innermostLoop {outer inner : List RangeLoop} {loop : RangeLoop} {v : String}
    (hinner : ∀ l ∈ inner, v ∉ l.declared) :
    NameExpression.innermost? ((outer ++ loop :: inner).filterMap RangeLoop.binding?) v =
      (loop.values? v).or (NameExpression.innermost? (outer.filterMap RangeLoop.binding?) v) := by
  have single : (loop :: inner).filterMap RangeLoop.binding? =
      loop.binding?.toList ++ inner.filterMap RangeLoop.binding? := by
    cases h : loop.binding? <;> simp [h]
  rw [List.filterMap_append, single, innermost?_append, innermost?_append, innermost?_eq_none hinner,
    Option.none_or, innermost?_binding?]

/-- **The innermost loop that declares a variable.** Take a registration at any depth whose name is a variable
that a loop around it declares and no loop between the two. Its units stand side by side in the tree. If it is
known which values the loop gives to the variable, their names are these values, or the variable as it is written
if there is none. Otherwise their names are what the variable stands for outside the loop; so there is one unit
with the name of the variable if no loop further out declares a variable of this name. -/
theorem names_of_innermostLoop {outer inner : List RangeLoop} {loop : RangeLoop} {name : Node} {v : String}
    (h : Reaches s body parent [] (outer ++ loop :: inner) call units) (hn : call.nameArgument? = some name)
    (hk : name.kind = .identifier) (hv : name.text s.content = v) (hinner : ∀ l ∈ inner, v ∉ l.declared) :
    (∃ siblings, Siblings (subtests s body parent []) siblings ∧ units <:+: siblings) ∧
      (∀ values, loop.values? v = some values →
        units.map TestUnit.name = if values = [] then [v] else values) ∧
      (loop.values? v = none →
        units.map TestUnit.name = NameExpression.ofVariable (outer.filterMap RangeLoop.binding?) v ∧
          ((∀ l ∈ outer, v ∉ l.declared) → units.map TestUnit.name = [v])) := by
  have names := h.names_eq_ofVariable hn hk hv
  rw [NameExpression.ofVariable, innermost?_of_innermostLoop hinner] at names
  refine ⟨h.exists_siblings, ?_, ?_⟩
  · intro values hvalues
    rw [names, hvalues, Option.some_or]
    cases values <;> rfl
  · intro hnone
    rw [hnone, Option.none_or] at names
    refine ⟨names, ?_⟩
    intro houter
    rw [names, innermost?_eq_none houter]

/-- The registrations in the first function of a file: the loops around each, and the kind and text of its name
expression. -/
def Source.loopNests? (text : String) : Option (List (List RangeLoop × Option (Kind × String))) := do
  let f ← Source.parse? (Bytes.ofString text)
  let function ← f.functions.head?
  let body ← function.child? .body
  return ((f.scope {}).registrations body).map fun o =>
    (o.loops f.content, o.node.nameArgument?.map fun name => (name.kind, name.text f.content))

/-- The search reaches a lone registration in the first function of a file. -/
theorem Source.exists_reaches_of_loopNests? {text v : String} {loops : List RangeLoop} {kind : Kind}
    (h : Source.loopNests? text = some [(loops, some (kind, v))]) :
    ∃ f function body call units name, Source.parse? (Bytes.ofString text) = some f ∧ function ∈ f.functions ∧
      function.child? .body = some body ∧ Reaches (f.scope {}) body "TestX" [] loops call units ∧
      call.nameArgument? = some name ∧ name.kind = kind ∧ name.text (f.scope {}).content = v := by
  simp only [Source.loopNests?, Option.bind_eq_bind, Option.bind_eq_some_iff] at h
  obtain ⟨f, hf, function, hfunction, body, hbody, hlist⟩ := h
  obtain ⟨o, ho, hnest⟩ := List.map_eq_singleton_iff.1 (Option.some.inj hlist)
  obtain ⟨rfl, hname⟩ := Prod.mk.inj hnest
  obtain ⟨name, hn, hname⟩ := Option.map_eq_some_iff.1 hname
  obtain ⟨hk, hv⟩ := Prod.mk.inj hname
  have hmem : o ∈ (f.scope {}).registrations body := by
    rw [ho]
    exact List.mem_singleton_self o
  exact ⟨f, function, body, o.node, _, name, hf, List.mem_of_head? hfunction, hbody, .here hmem, hn, hk, hv⟩

/-- A file with a loop over the texts `a` and `b` and inside it a loop over a collection, both for a variable
`v`, which names a sub-test. -/
def nestFile (collection : String) : String :=
  "func TestX() \x7b for _, v := range []string\x7b`a`, `b`\x7d \x7b for _, v := range " ++ collection ++
    " \x7b t.Run(v, func() \x7b\x7d) \x7d \x7d \x7d"

/-- A loop inside another that goes through a composite literal, too. -/
theorem names_of_innermostLoop_literal :
    ∃ f function body call units name outer loop, Source.parse? (Bytes.ofString (nestFile "[]string\x7b`c`\x7d")) =
        some f ∧ function ∈ f.functions ∧ function.child? .body = some body ∧
      Reaches (f.scope {}) body "TestX" [] [outer, loop] call units ∧ call.nameArgument? = some name ∧
      name.kind = .identifier ∧ name.text f.content = "v" ∧ outer.values? "v" = some ["a", "b"] ∧
      loop.values? "v" = some ["c"] ∧ units.map TestUnit.name = ["c"] := by
  have nests : Source.loopNests? (nestFile "[]string\x7b`c`\x7d") =
      some [([⟨["_", "v"], some ⟨"v", ["a", "b"]⟩, by decide⟩, ⟨["_", "v"], some ⟨"v", ["c"]⟩, by decide⟩],
        some (.identifier, "v"))] := by
    decide +kernel
  obtain ⟨f, function, body, call, units, name, hf, hfunction, hbody, hreach, hn, hk, hv⟩ :=
    Source.exists_reaches_of_loopNests? nests
  obtain ⟨-, values, -⟩ := @names_of_innermostLoop _ _ _ _ _ [_] [] _ _ _ hreach hn hk hv (by simp)
  exact ⟨f, function, body, call, units, name, _, _, hf, hfunction, hbody, hreach, hn, hk, hv, rfl, rfl,
    values ["c"] rfl⟩

/-- **A loop that hides nothing.** Inside a loop over two texts a loop over something else declares the same
variable. A sub-test that is named by the variable has no known name then; but two units are found for it, with
the texts of the outer loop. -/
theorem exists_names_of_outerLoop :
    ∃ f function body call units name outer loop, Source.parse? (Bytes.ofString (nestFile "xs")) = some f ∧
      function ∈ f.functions ∧ function.child? .body = some body ∧
      Reaches (f.scope {}) body "TestX" [] [outer, loop] call units ∧ call.nameArgument? = some name ∧
      name.kind = .identifier ∧ name.text f.content = "v" ∧ "v" ∈ loop.declared ∧ loop.binding? = none ∧
      units.map TestUnit.name = ["a", "b"] ∧ units.map TestUnit.name ≠ ["v"] := by
  have nests : Source.loopNests? (nestFile "xs") =
      some [([⟨["_", "v"], some ⟨"v", ["a", "b"]⟩, by decide⟩, ⟨["_", "v"], none, by decide⟩],
        some (.identifier, "v"))] := by
    decide +kernel
  obtain ⟨f, function, body, call, units, name, hf, hfunction, hbody, hreach, hn, hk, hv⟩ :=
    Source.exists_reaches_of_loopNests? nests
  have names : units.map TestUnit.name = ["a", "b"] := hreach.names_eq_ofVariable hn hk hv
  exact ⟨f, function, body, call, units, name, _, _, hf, hfunction, hbody, hreach, hn, hk, hv, by simp, rfl,
    names, by rw [names]; decide⟩

end SuiteReport.Go
