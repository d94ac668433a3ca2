import SuiteReport.Proofs.Subtest.LoopScope
/-!
# Sub-tests in another place

The sub-tests below a body are the same wherever the body stands: below another unit they have the same names,
comments and nesting, and their machine names begin with that of the other unit. Of the loop variables that are known
at the body, only the values of the innermost one of each name matter. Both are carried through the search at once,
because the search goes on below every unit with a longer machine name and inside every loop with more variables.

## Main definitions

* `SameValues`: whether every variable has the same values in two scopes.
* `TestUnit.relocated`: a tree of units below another unit.

## Main results

* `subtests_append_relocated`: the search below one unit and below another.
* `subtests_relocated`: what sub-tests have from the unit above them and from the variables known there.
-/

namespace SuiteReport

/-! ### Units below another unit -/

/-- The name with the text it begins with replaced by another one. A name that begins otherwise stays. -/
def relocatedName (old new name : String) : String :=
  if old.toList <+: name.toList then new ++ String.ofList (name.toList.drop old.toList.length) else name

theorem relocatedName_append (old new rest : String) : relocatedName old new (old ++ rest) = new ++ rest := by
  simp [relocatedName]

theorem relocatedName_self (old name : String) : relocatedName old old name = name := by
  rw [relocatedName]
  split
  · rename_i h
    obtain ⟨rest, hrest⟩ := h
    rw [← hrest, List.drop_left, ← String.toList_inj, String.toList_append, String.toList_ofList, hrest]
  · rfl

/-- The machine name of a sub-test begins with that of the unit above it. -/
theorem childMachineName_append (parent above name : String) :
    childMachineName (parent ++ above) name = parent ++ childMachineName above name := by
  simp only [childMachineName, String.append_assoc]

namespace TestUnit

mutual

/-- The unit with the beginning of all machine names in it replaced. -/
def relocated (old new : String) : TestUnit → TestUnit
  | ⟨name, machineName, comment, subtests⟩ =>
    ⟨name, relocatedName old new machineName, comment, relocatedAll old new subtests⟩

/-- Several units with the beginning of all machine names in them replaced. -/
def relocatedAll (old new : String) : List TestUnit → List TestUnit
  | [] => []
  | u :: us => u.relocated old new :: relocatedAll old new us

end

variable {old new : String}

theorem machineName_relocated (u : TestUnit) :
    (u.relocated old new).machineName = relocatedName old new u.machineName := by
  cases u
  rfl

theorem relocatedAll_eq_map (us : List TestUnit) : relocatedAll old new us = us.map (relocated old new) := by
  induction us with
  | nil => rfl
  | cons u us ih => rw [relocatedAll, ih, List.map_cons]

mutual

theorem preorder_relocated : ∀ u : TestUnit, (u.relocated old new).preorder = u.preorder.map (relocated old new)
  | ⟨_, _, _, subtests⟩ => by
      rw [relocated, preorder, preorder, List.map_cons, relocated, preorderAll_relocatedAll subtests]

theorem preorderAll_relocatedAll : ∀ us : List TestUnit,
    preorderAll (relocatedAll old new us) = (preorderAll us).map (relocated old new)
  | [] => rfl
  | u :: us => by
      rw [relocatedAll, preorderAll, preorderAll, List.map_append, preorder_relocated u, preorderAll_relocatedAll us]

end

mutual

theorem relocated_self : ∀ u : TestUnit, u.relocated old old = u
  | ⟨_, _, _, subtests⟩ => by rw [relocated, relocatedName_self, relocatedAll_self subtests]

theorem relocatedAll_self : ∀ us : List TestUnit, relocatedAll old old us = us
  | [] => rfl
  | u :: us => by rw [relocatedAll, relocated_self u, relocatedAll_self us]

end

end TestUnit

namespace Go

/-! ### Scopes with the same values -/

/-- Whether every variable has the same values in both scopes, where a variable that is not known is one without
values. -/
def SameValues (bindings bindings' : List LoopBinding) : Prop :=
  ∀ v, (NameExpression.innermost? bindings v).getD [] = (NameExpression.innermost? bindings' v).getD []

variable {bindings bindings' : List LoopBinding}

/-- The same variables further in change nothing, be it that they hide variables further out. -/
theorem SameValues.append (h : SameValues bindings bindings') (inner : List LoopBinding) :
    SameValues (bindings ++ inner) (bindings' ++ inner) := by
  intro v
  rw [innermost?_append, innermost?_append]
  cases NameExpression.innermost? inner v with
  | none => exact h v
  | some values => rfl

/-- Nothing is known of a variable exactly if no variable has its name. -/
theorem innermost?_eq_none_iff {v : String} :
    NameExpression.innermost? bindings v = none ↔ ∀ b ∈ bindings, b.name ≠ v := by
  rw [NameExpression.innermost?, Option.map_eq_none_iff, List.find?_eq_none]
  simp

/-- A variable does not matter if one of its name is known further in. -/
theorem sameValues_of_hidden {outer inner : List LoopBinding} {b : LoopBinding} (h : ∃ c ∈ inner, c.name = b.name) :
    SameValues (outer ++ b :: inner) (outer ++ inner) := by
  intro v
  rw [← List.singleton_append, innermost?_append, innermost?_append, innermost?_append]
  cases hin : NameExpression.innermost? inner v with
  | some values => rfl
  | none =>
      obtain ⟨c, hc, hname⟩ := h
      have other : b.name ≠ v := hname ▸ innermost?_eq_none_iff.1 hin c hc
      simp [NameExpression.innermost?, other]

/-- Scopes with the same values give a form the same names. -/
theorem NameForm.names_congr (h : SameValues bindings bindings') (f : NameForm) :
    f.names bindings = f.names bindings' := by
  induction f with
  | text value => rfl
  | var name => rw [names, names, ofVariable_eq, ofVariable_eq, h name]
  | sum left right ihl ihr => rw [names, names, ihl, ihr]

/-- Scopes with the same values give a registration the same names. -/
theorem Scope.namesOf_congr (h : SameValues bindings bindings') (s : Scope) (call : Node) :
    s.namesOf bindings call = s.namesOf bindings' call := by
  rw [namesOf, namesOf]
  congr 2
  funext name
  rw [names_eq_names_ofNode, names_eq_names_ofNode, NameForm.names_congr h]

/-! ### The search below another unit -/

/-- **The search below another unit** gives the same units with other machine names. The induction is on the size of
the body, with all that stands between the unit and the body free: the search goes on below units whose machine names
are longer. -/
theorem subtests_append_relocated (s : Scope) (body : Node) (old new above : String)
    (h : SameValues bindings bindings') :
    subtests s body (new ++ above) bindings' =
      (subtests s body (old ++ above) bindings).map (TestUnit.relocated old new) := by
  induction hk : sizeOf body using Nat.strongRecOn generalizing body above bindings bindings' with
  | ind k ih =>
      subst hk
      rw [subtests_eq_gather, subtests_eq_gather, Scope.gather, Scope.gather, List.map_flatMap]
      refine List.flatMap_congr fun o ho => ?_
      have inner := h.append (o.bindings s.content)
      rw [Scope.units, Scope.units, List.map_map, ← Scope.namesOf_congr inner]
      refine List.map_congr_left fun name _ => ?_
      have below : (o.node.callbackBody?.map fun body =>
            subtests s body (childMachineName (new ++ above) name) (bindings' ++ o.bindings s.content)).getD [] =
          TestUnit.relocatedAll old new ((o.node.callbackBody?.map fun body =>
            subtests s body (childMachineName (old ++ above) name) (bindings ++ o.bindings s.content)).getD []) := by
        cases hb : o.node.callbackBody? with
        | none => rfl
        | some body =>
            rw [Option.map_some, Option.map_some, Option.getD_some, Option.getD_some, TestUnit.relocatedAll_eq_map,
              childMachineName_append, childMachineName_append]
            exact ih _ (Scope.sizeOf_callbackBody?_lt ho hb) body _ inner rfl
      rw [Function.comp_apply, Scope.unit, Scope.unit, TestUnit.child, TestUnit.child, TestUnit.relocated, below,
        childMachineName_append, childMachineName_append, relocatedName_append]

/-- The search below another unit and in a scope with the same values. -/
theorem subtests_eq_map_relocated (s : Scope) (body : Node) (old new : String) (h : SameValues bindings bindings') :
    subtests s body new bindings' = (subtests s body old bindings).map (TestUnit.relocated old new) := by
  simpa using subtests_append_relocated s body old new "" h

/-- All machine names below a unit begin with its own. -/
theorem exists_machineName_eq_append {s : Scope} {body : Node} {parent : String} {u : TestUnit}
    (h : u ∈ TestUnit.preorderAll (subtests s body parent bindings)) : ∃ rest, u.machineName = parent ++ rest := by
  have same : SameValues bindings bindings := fun _ => rfl
  rw [subtests_eq_map_relocated s body "" parent same, ← TestUnit.relocatedAll_eq_map,
    TestUnit.preorderAll_relocatedAll] at h
  obtain ⟨plain, -, rfl⟩ := List.mem_map.1 h
  exact ⟨plain.machineName, by simp [TestUnit.machineName_relocated, relocatedName]⟩

/-- **Sub-tests do not depend on where their body stands.** Take two units and two scopes in which every variable has
the same values. The sub-tests of a body below the one unit in the one scope are those below the other unit in the other
scope, with the machine name of the one replaced by that of the other at the beginning of all machine names, at every
depth, and no other change; and all machine names do begin so. Variables that are hidden further in do not matter, and
a node that is neither a registration nor a loop over a composite literal hands the scope on to each of its children as
it is, whatever loops stand beside the child. -/
theorem subtests_relocated (s : Scope) (body : Node) (old new : String) (h : SameValues bindings bindings') :
    subtests s body new bindings' = (subtests s body old bindings).map (TestUnit.relocated old new) ∧
      (∀ u ∈ TestUnit.preorderAll (subtests s body old bindings), ∃ rest, u.machineName = old ++ rest) ∧
      (∀ outer inner b, (∃ c ∈ inner, c.name = b.name) →
        subtests s body old (outer ++ b :: inner) = subtests s body old (outer ++ inner)) ∧
      (body.rangeLiteral? = none → ¬ s.Registers body →
        subtests s body old bindings = body.children.flatMap fun child => subtests s child old bindings) := by
  refine ⟨subtests_eq_map_relocated s body old new h, fun _ => exists_machineName_eq_append, ?_, subtests_of_plain⟩
  intro outer inner b hidden
  have same : SameValues (outer ++ b :: inner) (outer ++ inner) := sameValues_of_hidden hidden
  have same := subtests_eq_map_relocated s body old old same
  rw [← TestUnit.relocatedAll_eq_map, TestUnit.relocatedAll_self] at same
  exact same.symm

/-- A file with a loop, searched below another unit and in a scope where a variable without values hides another one. -/
theorem subtests_relocated_loopFile :
    ∃ f function body u, Source.parse? (Bytes.ofString (loopFile "`case ` + v")) = some f ∧ function ∈ f.functions ∧
      function.child? .body = some body ∧ u ∈ subtests (f.scope {}) body "TestX" [] ∧ u.name = "case b" ∧
      SameValues [] [⟨"w", ["0"]⟩, ⟨"w", []⟩] ∧
      subtests (f.scope {}) body "Suite/TestY" [⟨"w", ["0"]⟩, ⟨"w", []⟩] =
        (subtests (f.scope {}) body "TestX" []).map (TestUnit.relocated "TestX" "Suite/TestY") := by
  have forms : Source.nameForms? (loopFile "`case ` + v") =
      some [([⟨"v", ["a", "b"]⟩], some (.sum (.text "case ") (.var "v")))] := by
    decide +kernel
  obtain ⟨f, function, body, u, -, hf, hfunction, hbody, found, hunit, -⟩ :=
    Source.exists_unit_of_nameForms? forms (by decide : "case b" ∈ _)
  have same : SameValues [] [⟨"w", ["0"]⟩, ⟨"w", []⟩] := by
    intro v
    by_cases hv : "w" = v <;> simp [NameExpression.innermost?, hv]
  obtain ⟨moved, -⟩ := subtests_relocated (f.scope {}) body "TestX" "Suite/TestY" same
  exact ⟨f, function, body, u, hf, hfunction, hbody, found, hunit, same, moved⟩

end Go

end SuiteReport
