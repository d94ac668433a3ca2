import SuiteReport.Go.TestFile
import SuiteReport.Proofs.Subtest.Declaration
import SuiteReport.Proofs.Subtest.Form
/-!
# Choices behind the names of sub-tests

A unit that the search finds stands for a run of its call, and a run gives one value to the variable of every
loop around the call. This module compares the names on the way down to a unit with such runs. Every use of a
variable in them has a value of its loop; but the uses are expanded each on its own, so a loop whose variable
is used twice can have given it two values, and then no run has all the names. Where no loop with several
values is used twice on the way, one choice of values explains all names.

Scopes grow downwards: a call further in knows the variables of the calls around it first, so a loop has the
same number in all scopes on the way to a unit.

## Main definitions

* `UnitPath`: a way down a tree of units.
* `Lineage`: the calls that a way down was found by.
* `SeparateChoices`, `OneChoice`: what explains the names on the way.

## Main results

* `choices_of_unitPath`: every way down has a lineage and is explained by separate choices, and by one choice
  where no loop with several values is used twice.
-/

namespace SuiteReport.Go

/-- A way down a tree of units: a unit from a list, one of its sub-tests, and so on. -/
inductive UnitPath : List TestUnit → List TestUnit → Prop
  | single {units : List TestUnit} {u : TestUnit} (hu : u ∈ units) : UnitPath units [u]
  | down {units path : List TestUnit} {u : TestUnit} (hu : u ∈ units) (rest : UnitPath u.subtests path) :
      UnitPath units (u :: path)

/-- A call that registers a sub-test, as far as its names depend on it. -/
structure CallSite where
  /-- The name expression. -/
  name : Node
  /-- The variables known at the call, from the outermost to the innermost. -/
  scope : List LoopBinding

namespace CallSite

/-- The value of the name expression under a choice for each use of a variable. -/
def value (content : Bytes) (c : CallSite) (pick : List Role → Nat → String) : String :=
  (NameForm.ofNode content c.name).evaluate c.scope pick

/-- The loops whose variables the name expression uses, once for each use. -/
def uses (content : Bytes) (c : CallSite) : List Nat := (NameForm.ofNode content c.name).uses c.scope

end CallSite

/-- The calls by which the search finds the units on a way down, when it starts from a body below the unit with
the given machine name and with the given variables known. -/
inductive Lineage (s : Scope) : Node → String → List LoopBinding → List TestUnit → List CallSite → Prop
  | single {body name : Node} {parent : String} {bindings : List LoopBinding} {o : Occurrence} {u : TestUnit}
      (ho : o ∈ s.registrations body) (hn : o.node.nameArgument? = some name)
      (hu : u ∈ s.units parent (bindings ++ o.bindings s.content) o.node) :
      Lineage s body parent bindings [u] [⟨name, bindings ++ o.bindings s.content⟩]
  | down {body inner name : Node} {parent : String} {bindings : List LoopBinding} {o : Occurrence}
      {u : TestUnit} {path : List TestUnit} {calls : List CallSite}
      (ho : o ∈ s.registrations body) (hn : o.node.nameArgument? = some name)
      (hu : u ∈ s.units parent (bindings ++ o.bindings s.content) o.node)
      (hb : o.node.callbackBody? = some inner)
      (rest : Lineage s inner u.machineName (bindings ++ o.bindings s.content) path calls) :
      Lineage s body parent bindings (u :: path) (⟨name, bindings ++ o.bindings s.content⟩ :: calls)

/-- Every name on a way down is the value of its call's name expression under a choice of its own, which may
give different values to different uses of a variable. -/
def SeparateChoices (content : Bytes) (path : List TestUnit) (calls : List CallSite) : Prop :=
  List.Forall₂ (fun u c => ∃ pick, (∀ a, Fits c.scope (pick a)) ∧ u.name = c.value content pick) path calls

/-- There is one choice of a value for each loop under which every name on a way down is the value of its
call's name expression. -/
def OneChoice (content : Bytes) (path : List TestUnit) (calls : List CallSite) : Prop :=
  ∃ pick : Nat → String, (∀ c ∈ calls, Fits c.scope pick) ∧
    path.map TestUnit.name = calls.map (·.value content fun _ => pick)

variable {s : Scope} {body : Node} {parent : String} {bindings : List LoopBinding}
  {path : List TestUnit} {calls : List CallSite}

/-! ### Units and their calls -/

/-- Every unit that the search finds is one of a registration in the body. -/
theorem exists_registration_of_mem_subtests {u : TestUnit} (h : u ∈ subtests s body parent bindings) :
    ∃ o ∈ s.registrations body, ∃ name, o.node.nameArgument? = some name ∧
      u ∈ s.units parent (bindings ++ o.bindings s.content) o.node := by
  rw [subtests_eq_gather, Scope.gather, List.mem_flatMap] at h
  obtain ⟨o, ho, hu⟩ := h
  obtain ⟨name, hn⟩ := Node.exists_nameArgument? (Scope.mem_registrations.1 ho).2.1
  exact ⟨o, ho, name, hn, hu⟩

/-- The name of a unit is one of the names of its call, and its sub-tests are those found in the function of
the call. -/
theorem of_mem_units {scope : List LoopBinding} {call name : Node} {u : TestUnit}
    (hn : call.nameArgument? = some name) (hu : u ∈ s.units parent scope call) :
    u.name ∈ (NameForm.ofNode s.content name).names scope ∧
      u.subtests =
        (call.callbackBody?.map fun inner => subtests s inner u.machineName scope).getD [] := by
  obtain ⟨unitName, hname, rfl⟩ := List.mem_map.1 hu
  rw [Scope.namesOf, hn, Option.map_some, Option.getD_some, names_eq_names_ofNode] at hname
  exact ⟨hname, rfl⟩

/-- Every name of a registration in the body is that of a unit that the search finds. -/
theorem exists_unit_of_mem_registrations (s : Scope) (parent : String) (bindings : List LoopBinding) {o : Occurrence}
    {name : Node} {unitName : String} (ho : o ∈ s.registrations body) (hn : o.node.nameArgument? = some name)
    (hname : unitName ∈ (NameForm.ofNode s.content name).names (bindings ++ o.bindings s.content)) :
    ∃ u ∈ s.units parent (bindings ++ o.bindings s.content) o.node, u.name = unitName ∧
      u ∈ subtests s body parent bindings := by
  have hnames : unitName ∈ s.namesOf (bindings ++ o.bindings s.content) o.node := by
    rw [Scope.namesOf, hn, Option.map_some, Option.getD_some, names_eq_names_ofNode]
    exact hname
  obtain ⟨u, hu, hunit⟩ : ∃ u ∈ s.units parent (bindings ++ o.bindings s.content) o.node, u.name = unitName :=
    ⟨_, List.mem_map_of_mem hnames, rfl⟩
  refine ⟨u, hu, hunit, ?_⟩
  rw [subtests_eq_gather, Scope.gather]
  exact List.mem_flatMap.2 ⟨o, ho, hu⟩

/-- A unit with sub-tests has them from the function of its call. -/
theorem exists_callbackBody_of_mem_units {scope : List LoopBinding} {call name : Node} {u : TestUnit}
    (hn : call.nameArgument? = some name) (hu : u ∈ s.units parent scope call) (hne : u.subtests ≠ []) :
    ∃ inner, call.callbackBody? = some inner ∧ u.subtests = subtests s inner u.machineName scope := by
  obtain ⟨-, hsub⟩ := of_mem_units hn hu
  cases hb : call.callbackBody? with
  | none =>
      rw [hb] at hsub
      exact absurd hsub hne
  | some inner =>
      rw [hb] at hsub
      exact ⟨inner, rfl, hsub⟩

/-- There is something on a way down. -/
theorem UnitPath.ne_nil {units : List TestUnit} (h : UnitPath units path) : units ≠ [] ∧ path ≠ [] := by
  cases h with
  | single hu => exact ⟨List.ne_nil_of_mem hu, List.cons_ne_nil _ _⟩
  | down hu rest => exact ⟨List.ne_nil_of_mem hu, List.cons_ne_nil _ _⟩

/-- Every way down the units below a body has a lineage. -/
theorem UnitPath.exists_lineage (h : UnitPath (subtests s body parent bindings) path) :
    ∃ calls, Lineage s body parent bindings path calls := by
  generalize hunits : subtests s body parent bindings = units at h
  induction h generalizing body parent bindings with
  | single hu =>
      subst hunits
      obtain ⟨o, ho, name, hn, hu⟩ := exists_registration_of_mem_subtests hu
      exact ⟨_, .single ho hn hu⟩
  | @down units path u hu rest ih =>
      subst hunits
      obtain ⟨o, ho, name, hn, hu⟩ := exists_registration_of_mem_subtests hu
      obtain ⟨inner, hb, hsub⟩ := exists_callbackBody_of_mem_units hn hu rest.ne_nil.1
      obtain ⟨calls, hcalls⟩ := ih hsub.symm
      exact ⟨_, .down ho hn hu hb hcalls⟩

/-! ### Separate choices -/

/-- Every name on a way down is explained by a choice of its own. -/
theorem Lineage.separateChoices (h : Lineage s body parent bindings path calls) :
    SeparateChoices s.content path calls := by
  induction h with
  | single ho hn hu =>
      obtain ⟨pick, hpick, hname⟩ := NameForm.mem_names_iff.1 (of_mem_units hn hu).1
      exact .cons ⟨pick, hpick, hname.symm⟩ .nil
  | down ho hn hu hb rest ih =>
      obtain ⟨pick, hpick, hname⟩ := NameForm.mem_names_iff.1 (of_mem_units hn hu).1
      exact .cons ⟨pick, hpick, hname.symm⟩ ih

/-! ### One choice -/

/-- Of the calls of a lineage one knows all variables that any of them knows, among them those known at the
body. -/
theorem Lineage.exists_innermost (h : Lineage s body parent bindings path calls) :
    ∃ c ∈ calls, bindings <+: c.scope ∧ ∀ c' ∈ calls, c'.scope <+: c.scope := by
  induction h with
  | @single body name parent bindings o u ho hn hu =>
      refine ⟨⟨name, bindings ++ o.bindings s.content⟩, by simp, by simp, ?_⟩
      intro c' hc'
      obtain rfl := List.mem_singleton.1 hc'
      exact List.prefix_rfl
  | down ho hn hu hb rest ih =>
      obtain ⟨c, hc, hscope, hall⟩ := ih
      refine ⟨c, by simp [hc], (List.prefix_append _ _).trans hscope, ?_⟩
      intro c' hc'
      rcases List.mem_cons.1 hc' with rfl | hc'
      · exact hscope
      · exact hall c' hc'

/-- Names explained by separate choices are explained by one choice for all loops of a scope that reaches as
far as any of the calls, where no loop of it with several values is used twice. The induction is on the list of
calls: the choice for the first and the one for the rest can be taken together. -/
theorem SeparateChoices.exists_common {content : Bytes} {scope : List LoopBinding}
    (h : SeparateChoices content path calls) (reach : ∀ c ∈ calls, c.scope <+: scope)
    (once : UsedOnce scope (calls.flatMap (CallSite.uses content))) :
    ∃ pick, Fits scope pick ∧ path.map TestUnit.name = calls.map (·.value content fun _ => pick) := by
  induction h with
  | nil =>
      obtain ⟨pick, hpick⟩ := exists_fits scope
      exact ⟨pick, hpick, rfl⟩
  | @cons u c path calls hfirst hrest ih =>
      rw [List.flatMap_cons] at once
      have hc : c.scope <+: scope := reach c (by simp)
      have onceFirst : UsedOnce c.scope (c.uses content) :=
        (once.restrict hc).of_sublist (List.sublist_append_left _ _)
      obtain ⟨pick, hpick, hname⟩ := hfirst
      obtain ⟨first, hfirst, hvalue⟩ := NameForm.exists_evaluate_eq hpick onceFirst
      obtain ⟨first', hfirst', hext⟩ := hfirst.exists_extension hc
      obtain ⟨later, hlater, hnames⟩ := ih (fun c' hc' => reach c' (by simp [hc']))
        (once.of_sublist (List.sublist_append_right _ _))
      have bound : ∀ i ∈ c.uses content, ∃ b, scope[i]? = some b ∧ b.values ≠ [] := by
        intro i hi
        obtain ⟨b, hb, hne⟩ := NameForm.exists_values_of_mem_uses hi
        exact ⟨b, getElem?_inner hc hb, hne⟩
      obtain ⟨common, hcommon, hagree, hagree'⟩ := hfirst'.exists_common hlater bound once
      have sameFirst : u.name = c.value content fun _ => common := by
        rw [hname, CallSite.value, CallSite.value, ← hvalue]
        refine NameForm.evaluate_congr ?_
        intro i hi
        obtain ⟨b, hb, -⟩ := NameForm.exists_values_of_mem_uses hi
        rw [hagree i hi, hext i b hb]
      have sameLater : calls.map (·.value content fun _ => later) =
          calls.map (·.value content fun _ => common) := by
        refine List.map_congr_left ?_
        intro c' hc'
        refine NameForm.evaluate_congr ?_
        intro i hi
        exact (hagree' i (List.mem_flatMap.2 ⟨c', hc', hi⟩)).symm
      exact ⟨common, hcommon, by rw [List.map_cons, List.map_cons, ← sameFirst, ← sameLater, hnames]⟩

/-- **What explains the names of sub-tests.** Every unit below a body was found by a chain of calls. However it
was found, the names on the way down to it are those of its calls with a value of its own for each use of a
variable; and there is one choice of a value for each loop around the calls that gives all these names, provided
that no loop with several values is used more than once in them. -/
theorem choices_of_unitPath (s : Scope) (body : Node) (parent : String) (bindings : List LoopBinding)
    {path : List TestUnit} (h : UnitPath (subtests s body parent bindings) path) :
    (∃ calls, Lineage s body parent bindings path calls) ∧
      ∀ calls, Lineage s body parent bindings path calls →
        SeparateChoices s.content path calls ∧
          ((∀ c ∈ calls, UsedOnce c.scope (calls.flatMap (CallSite.uses s.content))) →
            OneChoice s.content path calls) := by
  refine ⟨h.exists_lineage, ?_⟩
  intro calls hcalls
  refine ⟨hcalls.separateChoices, ?_⟩
  intro once
  obtain ⟨c, hc, -, reach⟩ := hcalls.exists_innermost
  obtain ⟨pick, hpick, hnames⟩ := hcalls.separateChoices.exists_common reach (once c hc)
  exact ⟨pick, fun c' hc' => hpick.restrict (reach c' hc'), hnames⟩

/-! ### A loop that the names of two calls share -/

/-- What the names of the first registration in the first function of a file come from, and those of the first one in
the function that it calls: the variables that become known on the way there, and the form of the name expression. -/
def Source.nestedForms? (text : String) : Option (List (List LoopBinding × NameForm)) := do
  let f ← Source.parse? (Bytes.ofString text)
  let function ← f.functions.head?
  let body ← function.child? .body
  let outer ← ((f.scope {}).registrations body).head?
  let outerName ← outer.node.nameArgument?
  let callback ← outer.node.callbackBody?
  let inner ← ((f.scope {}).registrations callback).head?
  let innerName ← inner.node.nameArgument?
  return [(outer.bindings f.content, NameForm.ofNode f.content outerName),
    (inner.bindings f.content, NameForm.ofNode f.content innerName)]

/-- A name of the outer registration and one of the inner are those of two units, one a sub-test of the other, and the
two registrations are a lineage of this way down. -/
theorem Source.exists_path_of_nestedForms? {text unitName innerUnitName : String} {scope scope' : List LoopBinding}
    {form form' : NameForm} (h : Source.nestedForms? text = some [(scope, form), (scope', form')])
    (hu : unitName ∈ form.names scope) (hv : innerUnitName ∈ form'.names (scope ++ scope')) :
    ∃ f function body u v calls, Source.parse? (Bytes.ofString text) = some f ∧ function ∈ f.functions ∧
      function.child? .body = some body ∧ UnitPath (subtests (f.scope {}) body "TestX" []) [u, v] ∧
      u.name = unitName ∧ v.name = innerUnitName ∧ Lineage (f.scope {}) body "TestX" [] [u, v] calls ∧
      calls.map CallSite.scope = [scope, scope ++ scope'] ∧
      calls.map (CallSite.uses f.content) = [form.uses scope, form'.uses (scope ++ scope')] := by
  simp only [Source.nestedForms?, Option.bind_eq_bind, Option.bind_eq_some_iff] at h
  obtain ⟨f, hf, function, hfunction, body, hbody, outer, houter, name, hname, callback, hcallback, inner, hinner,
    name', hname', hforms⟩ := h
  obtain ⟨⟨rfl, rfl⟩, rfl, rfl⟩ : (outer.bindings f.content = scope ∧ NameForm.ofNode f.content name = form) ∧
      inner.bindings f.content = scope' ∧ NameForm.ofNode f.content name' = form' := by
    simpa using hforms
  have houter := List.mem_of_head? houter
  have hinner := List.mem_of_head? hinner
  obtain ⟨u, hunits, hunit, found⟩ := exists_unit_of_mem_registrations (f.scope {}) "TestX" [] houter hname hu
  obtain ⟨v, hunits', hunit', found'⟩ :=
    exists_unit_of_mem_registrations (f.scope {}) u.machineName (outer.bindings f.content) hinner hname' hv
  obtain ⟨-, hsub⟩ := of_mem_units hname hunits
  rw [hcallback] at hsub
  have below : v ∈ u.subtests := by
    rw [hsub]
    exact found'
  exact ⟨f, function, body, u, v, _, hf, List.mem_of_head? hfunction, hbody, .down found (.single below),
    hunit, hunit', .down houter hname hunits hcallback (.single hinner hname' hunits'), rfl, rfl⟩

/-- A file with a call inside the function of another: the names of both depend on the outermost loop, which has one
value, and each on a loop of its own besides. -/
def nestedLoops : String :=
  "func TestX() \x7b for _, k := range []string\x7b`k`\x7d \x7b for _, v := range []string\x7b`a`, `b`\x7d \x7b " ++
    "t.Run(k + v, func() \x7b for _, w := range []string\x7b`x`, `y`\x7d \x7b " ++
    "t.Run(k + w, func() \x7b\x7d) \x7d \x7d) \x7d \x7d \x7d"

/-- A way down through two calls, whose names share a loop. -/
theorem choices_of_unitPath_nestedLoops :
    ∃ f function body u v calls, Source.parse? (Bytes.ofString nestedLoops) = some f ∧
      function ∈ f.functions ∧ function.child? .body = some body ∧
      UnitPath (subtests (f.scope {}) body "TestX" []) [u, v] ∧ u.name = "kb" ∧ v.name = "kx" ∧
      Lineage (f.scope {}) body "TestX" [] [u, v] calls ∧ calls.map (CallSite.uses f.content) = [[0, 1], [0, 2]] ∧
      SeparateChoices f.content [u, v] calls ∧
      (∀ c ∈ calls, UsedOnce c.scope (calls.flatMap (CallSite.uses f.content))) ∧
      OneChoice f.content [u, v] calls := by
  have forms : Source.nestedForms? nestedLoops =
      some [([⟨"k", ["k"]⟩, ⟨"v", ["a", "b"]⟩], .sum (.var "k") (.var "v")),
        ([⟨"w", ["x", "y"]⟩], .sum (.var "k") (.var "w"))] := by
    decide +kernel
  obtain ⟨f, function, body, u, v, calls, hf, hfunction, hbody, path, hunit, hunit', lineage, scopes, uses⟩ :=
    Source.exists_path_of_nestedForms? forms (by decide : "kb" ∈ _) (by decide : "kx" ∈ _)
  have all : ∀ scope ∈ calls.map CallSite.scope, UsedOnce scope (calls.map (CallSite.uses f.content)).flatten := by
    rw [scopes, uses]
    decide
  have once : ∀ c ∈ calls, UsedOnce c.scope (calls.flatMap (CallSite.uses f.content)) := by
    intro c hc
    rw [List.flatMap_def]
    exact all c.scope (List.mem_map_of_mem hc)
  obtain ⟨-, explained⟩ := choices_of_unitPath (f.scope {}) body "TestX" [] path
  obtain ⟨separate, one⟩ := explained _ lineage
  exact ⟨f, function, body, u, v, calls, hf, hfunction, hbody, path, hunit, hunit', lineage, uses, separate, once,
    one once⟩

/-! ### A loop whose variable is used twice -/

/-- What the names in the first function of a file come from: for each registration in its body, the variables
known there and the form of the name expression. -/
def Source.nameForms? (text : String) : Option (List (List LoopBinding × Option NameForm)) := do
  let f ← Source.parse? (Bytes.ofString text)
  let function ← f.functions.head?
  let body ← function.child? .body
  return ((f.scope {}).registrations body).map fun o =>
    (o.bindings f.content, o.node.nameArgument?.map (NameForm.ofNode f.content))

/-- Each name of a lone registration in the first function of a file is that of a unit, and every lineage of
this unit is the registration. -/
theorem Source.exists_unit_of_nameForms? {text unitName : String} {scope : List LoopBinding} {form : NameForm}
    (h : Source.nameForms? text = some [(scope, some form)]) (hu : unitName ∈ form.names scope) :
    ∃ f function body u name, Source.parse? (Bytes.ofString text) = some f ∧ function ∈ f.functions ∧
      function.child? .body = some body ∧ u ∈ subtests (f.scope {}) body "TestX" [] ∧ u.name = unitName ∧
      NameForm.ofNode f.content name = form ∧
      Lineage (f.scope {}) body "TestX" [] [u] [⟨name, scope⟩] ∧
      ∀ calls, Lineage (f.scope {}) body "TestX" [] [u] calls → calls = [⟨name, scope⟩] := by
  simp only [Source.nameForms?, Option.bind_eq_bind, Option.bind_eq_some_iff] at h
  obtain ⟨f, hf, function, hfunction, body, hbody, hlist⟩ := h
  obtain ⟨o, ho, hform⟩ := List.map_eq_singleton_iff.1 (Option.some.inj hlist)
  obtain ⟨hscope, hform⟩ := Prod.mk.inj hform
  obtain ⟨name, hname, rfl⟩ := Option.map_eq_some_iff.1 hform
  have hmem : o ∈ (f.scope {}).registrations body := by
    rw [ho]
    exact List.mem_singleton_self o
  obtain ⟨u, hunits, hunit, found⟩ :=
    exists_unit_of_mem_registrations (f.scope {}) "TestX" [] hmem hname (hscope ▸ hu)
  have lineage := Lineage.single hmem hname hunits
  refine ⟨f, function, body, u, name, hf, List.mem_of_head? hfunction, hbody, found, hunit, rfl, ?_, ?_⟩
  · rwa [← hscope]
  · intro calls hcalls
    cases hcalls with
    | @single _ name' _ _ o' _ ho' hn' _ =>
        rw [ho, List.mem_singleton] at ho'
        subst ho'
        obtain rfl : name = name' := Option.some.inj (hname.symm.trans hn')
        rw [← hscope]
        rfl
    | down _ _ _ _ rest => cases rest

/-- A file with a loop over the texts `a` and `b` whose body registers sub-tests under a name expression in
the variable `v`. -/
def loopFile (name : String) : String :=
  "func TestX() \x7b for _, v := range []string\x7b`a`, `b`\x7d \x7b t.Run(" ++ name ++
    ", func() \x7b\x7d) \x7d \x7d"

/-- **One choice does not explain all names.** In a loop over two texts whose variable is written twice in a
name, a unit is found that no run of the loop registers: it joins the two texts. -/
theorem exists_unit_without_oneChoice :
    ∃ f function body u, Source.parse? (Bytes.ofString (loopFile "v + v")) = some f ∧
      function ∈ f.functions ∧ function.child? .body = some body ∧
      UnitPath (subtests (f.scope {}) body "TestX" []) [u] ∧ u.name = "ab" ∧
      ∀ calls, Lineage (f.scope {}) body "TestX" [] [u] calls → ¬ OneChoice f.content [u] calls := by
  have forms : Source.nameForms? (loopFile "v + v") =
      some [([⟨"v", ["a", "b"]⟩], some (.sum (.var "v") (.var "v")))] := by
    decide +kernel
  obtain ⟨f, function, body, u, name, hf, hfunction, hbody, found, hunit, hform, -, unique⟩ :=
    Source.exists_unit_of_nameForms? forms (by decide : "ab" ∈ _)
  refine ⟨f, function, body, u, hf, hfunction, hbody, .single found, hunit, ?_⟩
  intro calls hcalls
  rw [unique calls hcalls]
  rintro ⟨pick, hpick, hnames⟩
  have hv : pick 0 ∈ ["a", "b"] := hpick _ (List.mem_singleton_self _) 0 ⟨"v", ["a", "b"]⟩ rfl (by simp)
  have hvalue : "ab" = pick 0 ++ pick 0 := by
    simp only [List.map_cons, List.map_nil, List.cons.injEq, and_true, hunit, CallSite.value, hform] at hnames
    exact hnames
  rcases List.mem_pair.1 hv with h | h <;> rw [h] at hvalue <;> exact absurd hvalue (by decide)

end SuiteReport.Go
