import Mathlib.Algebra.BigOperators.Group.List.Basic
import Mathlib.Data.List.Forall2
import SuiteReport.Proofs.Subtest.Form
/-!
# Names as combinations of values

A name expression joins its leaves with plus signs. Each leaf has its values, from the bindings or by itself, and the
names are what comes about when one value is taken from each leaf, in all ways. The leaf on the left changes most
slowly, so the names come in the lexicographic order of the numbers of the values taken, and how the plus signs are
grouped does not matter.

A variable that is written twice is a leaf twice, and its values are taken independently there. Where no variable with
values is written twice, taking a value from each leaf is the same as giving a value to each variable.

## Main definitions

* `combinations`: all lists with one element from each of several lists.
* `AllPicks`: what it is to list all ways of taking an element from each of several lists, in order.
* `Node.addends`: the leaves of a name expression.
* `Node.boundNames`: the variables with values among them.
* `NameForm.under`: the value of a form where each variable stands for one text.

## Main results

* `exists_allPicks`: combinations come in lexicographic order.
* `NameForm.names_eq_combinations`: names are the combinations of the values of the leaves.
* `NameForm.names_eq_assignments`: they are the values under all assignments if no variable is written twice.
* `names_eq_picks`: all of this for expressions as they are written.
-/

namespace SuiteReport

/-! ### Combinations -/

/-- All lists with one element from each of the lists. The element from the first list changes most slowly. -/
def combinations {α : Type} : List (List α) → List (List α)
  | [] => [[]]
  | l :: ls => l.flatMap fun a => (combinations ls).map (a :: ·)

section Combinations

variable {α : Type}

theorem mem_combinations {c : List α} {ls : List (List α)} :
    c ∈ combinations ls ↔ List.Forall₂ (fun a l => a ∈ l) c ls := by
  induction ls generalizing c with
  | nil => simp [combinations, List.forall₂_nil_right_iff]
  | cons l ls ih =>
      simp only [combinations, List.mem_flatMap, List.mem_map, ih, List.forall₂_cons_right_iff]
      constructor
      · rintro ⟨a, ha, c, hc, rfl⟩
        exact ⟨a, c, ha, hc, rfl⟩
      · rintro ⟨a, c, ha, hc, rfl⟩
        exact ⟨a, ha, c, hc, rfl⟩

theorem length_of_mem_combinations {c : List α} {ls : List (List α)} (h : c ∈ combinations ls) :
    c.length = ls.length :=
  (mem_combinations.1 h).length_eq

/-- Of two rows of lists, one behind the other, each combination is one of the first and one of the second. -/
theorem combinations_append (ls ms : List (List α)) :
    combinations (ls ++ ms) = (combinations ls).flatMap fun c => (combinations ms).map (c ++ ·) := by
  induction ls with
  | nil => simp [combinations]
  | cons l ls ih =>
      rw [List.cons_append, combinations, combinations, List.flatMap_assoc]
      refine List.flatMap_congr fun a _ => ?_
      simp [ih, List.map_flatMap, List.flatMap_map, Function.comp_def]

theorem combinations_singleton (l : List α) : combinations [l] = l.map fun a => [a] := by
  simp [combinations, List.map_eq_flatMap]

/-- Of lists with one element each there is one combination. -/
theorem combinations_map_singleton {β : Type} (f : β → α) (bs : List β) :
    combinations (bs.map fun b => [f b]) = [bs.map f] := by
  induction bs with
  | nil => rfl
  | cons b bs ih => simp [combinations, ih]

theorem length_combinations (ls : List (List α)) : (combinations ls).length = (ls.map List.length).prod := by
  induction ls with
  | nil => rfl
  | cons l ls ih => simp [combinations, List.length_flatMap, ih]

/-- Combinations of numbers come in lexicographic order if the numbers do. -/
theorem pairwise_lt_combinations {ls : List (List Nat)} (h : ∀ l ∈ ls, l.Pairwise (· < ·)) :
    (combinations ls).Pairwise (· < ·) := by
  induction ls with
  | nil => simp [combinations]
  | cons l ls ih =>
      obtain ⟨hl, hls⟩ := List.forall_mem_cons.1 h
      rw [combinations, List.pairwise_flatMap]
      refine ⟨fun a _ => ?_, hl.imp fun {a b} hlt c hc d hd => ?_⟩
      · exact List.pairwise_map.2 ((ih hls).imp fun hlt => List.cons_lt_cons_iff.2 (.inr ⟨rfl, hlt⟩))
      · obtain ⟨_, -, rfl⟩ := List.mem_map.1 hc
        obtain ⟨_, -, rfl⟩ := List.mem_map.1 hd
        exact List.cons_lt_cons_iff.2 (.inl hlt)

end Combinations

/-- The elements with the given numbers, one from each list. -/
def picked (lists : List (List String)) (pick : List Nat) : List String :=
  List.zipWith (fun i l => l[i]?.getD "") pick lists

/-- `AllPicks lists picks`: the picks are all the ways to take an element from each list, told by its number, and
they stand in lexicographic order. -/
structure AllPicks (lists : List (List String)) (picks : List (List Nat)) : Prop where
  /-- The picks are in order, each of them once. -/
  sorted : picks.Pairwise (· < ·)
  /-- They are all the ways to take an element from each list. -/
  mem_iff (pick : List Nat) : pick ∈ picks ↔ List.Forall₂ (fun i l => i < l.length) pick lists

/-- A list has its elements by their numbers. -/
theorem map_getD_range (l : List String) : ((List.range l.length).map fun i => l[i]?.getD "") = l := by
  refine List.ext_getElem (by simp) fun i hi hi' => ?_
  simp [hi']

/-- **Combinations come in lexicographic order** of the numbers of the elements taken. -/
theorem exists_allPicks (lists : List (List String)) :
    ∃ picks, AllPicks lists picks ∧ combinations lists = picks.map (picked lists) := by
  refine ⟨combinations (lists.map fun l => List.range l.length), ⟨?_, fun pick => ?_⟩, ?_⟩
  · refine pairwise_lt_combinations ?_
    rintro _ hl
    obtain ⟨l, -, rfl⟩ := List.mem_map.1 hl
    exact List.pairwise_lt_range
  · simp only [mem_combinations, List.forall₂_map_right_iff, List.mem_range]
  · induction lists with
    | nil => rfl
    | cons l ls ih =>
        conv_lhs => rw [combinations, ← map_getD_range l, List.flatMap_map, ih]
        simp [combinations, List.map_flatMap, picked, Function.comp_def]

namespace Go

/-! ### Leaves of a form -/

namespace NameForm

variable {bindings : List LoopBinding}

/-- The texts and variables that a form is made up of, from left to right. -/
def leaves : NameForm → List NameForm
  | text value => [text value]
  | var name => [var name]
  | sum left right => left.leaves ++ right.leaves

/-- **Names are the combinations** of the values of the leaves, joined. -/
theorem names_eq_combinations (bindings : List LoopBinding) (f : NameForm) :
    f.names bindings = (combinations (f.leaves.map (names bindings))).map String.join := by
  induction f with
  | text value => simp [leaves, names, combinations]
  | var name => simp [leaves, combinations_singleton, Function.comp_def]
  | sum left right ihl ihr =>
      rw [leaves, List.map_append, combinations_append, names, ihl, ihr, NameExpression.joined]
      simp [List.map_flatMap, List.flatMap_map, Function.comp_def]

/-- A form has a name. -/
theorem names_ne_nil (bindings : List LoopBinding) (f : NameForm) : f.names bindings ≠ [] := by
  obtain ⟨pick, hpick⟩ := exists_fits bindings
  exact List.ne_nil_of_mem (mem_names_iff.2 ⟨fun _ => pick, fun _ => hpick, rfl⟩)

/-! ### Assignments -/

/-- The variable that a leaf is, if it has values. -/
def boundName? (bindings : List LoopBinding) : NameForm → Option String
  | var name => if (NameExpression.innermost? bindings name).getD [] = [] then none else some name
  | _ => none

/-- The variables with values among the leaves of a form, as often as they are written. -/
def boundNames (bindings : List LoopBinding) (f : NameForm) : List String :=
  f.leaves.filterMap (boundName? bindings)

/-- The value of a form where each variable stands for one text. -/
def under (value : String → String) : NameForm → String
  | text written => written
  | var name => value name
  | sum left right => left.under value ++ right.under value

/-- The texts that the variables stand for when the values are given to the names, one after the other. Other variables
stand for themselves. -/
def assigned : List String → List String → String → String
  | name :: names, value :: values, v => if v = name then value else assigned names values v
  | _, _, v => v

theorem assigned_of_notMem {names values : List String} {v : String} (h : v ∉ names) : assigned names values v = v := by
  induction names generalizing values with
  | nil => rfl
  | cons name names ih =>
      cases values with
      | nil => rfl
      | cons value values =>
          rw [List.mem_cons, not_or] at h
          rw [assigned, if_neg h.1, ih h.2]

theorem assigned_append {names values : List String} (hlength : values.length = names.length)
    (names' values' : List String) (v : String) :
    assigned (names ++ names') (values ++ values') v =
      if v ∈ names then assigned names values v else assigned names' values' v := by
  induction names generalizing values with
  | nil => rw [List.length_eq_zero_iff.1 hlength]; simp
  | cons name names ih =>
      cases values with
      | nil => cases hlength
      | cons value values =>
          rw [List.cons_append, List.cons_append, assigned, assigned, ih (Nat.succ.inj hlength)]
          by_cases hv : v = name <;> simp [hv]

/-- The value of a form depends on what its own variables stand for. -/
theorem under_congr {f : NameForm} {value value' : String → String}
    (h : ∀ v, var v ∈ f.leaves → value v = value' v) : f.under value = f.under value' := by
  induction f with
  | text written => rfl
  | var name => exact h name (List.mem_singleton_self _)
  | sum left right ihl ihr =>
      rw [under, under, ihl fun v hv => h v (List.mem_append_left _ hv),
        ihr fun v hv => h v (List.mem_append_right _ hv)]

/-- Whether a variable has values does not depend on where it is written. -/
theorem mem_boundNames_of_mem_boundNames {f g : NameForm} {v : String} (hf : var v ∈ f.leaves)
    (hg : v ∈ g.boundNames bindings) : v ∈ f.boundNames bindings := by
  obtain ⟨leaf, -, hleaf⟩ := List.mem_filterMap.1 hg
  refine List.mem_filterMap.2 ⟨_, hf, ?_⟩
  cases leaf with
  | var name =>
      rw [boundName?] at hleaf ⊢
      split at hleaf
      · cases hleaf
      · rename_i hvalues
        obtain rfl := Option.some.inj hleaf
        rw [if_neg hvalues]
  | text | sum => cases hleaf

/-- **Names are the values under all assignments** of a value to each variable that has values, if none of these is
written twice. The induction is on the form: an assignment for a sum is one for each operand, as the operands have no
such variable in common. -/
theorem names_eq_assignments {f : NameForm} (h : (f.boundNames bindings).Nodup) :
    f.names bindings =
      (combinations ((f.boundNames bindings).map (NameExpression.ofVariable bindings))).map fun values =>
        f.under (assigned (f.boundNames bindings) values) := by
  induction f with
  | text written => rfl
  | var name =>
      by_cases hvalues : (NameExpression.innermost? bindings name).getD [] = []
      · have free : boundNames bindings (var name) = [] := by simp [boundNames, leaves, boundName?, hvalues]
        rw [free, names, ofVariable_eq, if_pos hvalues]
        rfl
      · have bound : boundNames bindings (var name) = [name] := by simp [boundNames, leaves, boundName?, hvalues]
        rw [bound, List.map_singleton, combinations_singleton, List.map_map, names]
        simp [Function.comp_def, under, assigned]
  | sum left right ihl ihr =>
      have both : boundNames bindings (sum left right) = left.boundNames bindings ++ right.boundNames bindings := by
        simp [boundNames, leaves]
      rw [both] at h ⊢
      obtain ⟨hleft, hright, apart⟩ := List.nodup_append.1 h
      rw [names, ihl hleft, ihr hright, NameExpression.joined, List.map_append, combinations_append,
        List.map_flatMap, List.flatMap_map]
      refine List.flatMap_congr fun first hfirst => ?_
      rw [List.map_map, List.map_map]
      refine List.map_congr_left fun second _ => ?_
      have hlength := length_of_mem_combinations hfirst
      rw [List.length_map] at hlength
      have sameLeft : left.under (assigned (left.boundNames bindings ++ right.boundNames bindings) (first ++ second)) =
          left.under (assigned (left.boundNames bindings) first) := by
        refine under_congr fun v hv => ?_
        rw [assigned_append hlength]
        split
        · rfl
        · rename_i hnot
          rw [assigned_of_notMem hnot, assigned_of_notMem fun hmem => hnot (mem_boundNames_of_mem_boundNames hv hmem)]
      have sameRight : right.under (assigned (left.boundNames bindings ++ right.boundNames bindings) (first ++ second)) =
          right.under (assigned (right.boundNames bindings) second) := by
        refine under_congr fun v hv => ?_
        rw [assigned_append hlength, if_neg]
        exact fun hmem => apart v hmem v (mem_boundNames_of_mem_boundNames hv hmem) rfl
      rw [Function.comp_apply, Function.comp_apply, under, sameLeft, sameRight]

end NameForm

/-! ### Leaves of an expression -/

namespace Node

mutual

/-- The leaves of a name expression, from left to right: the operands of sums that are no sums themselves. -/
def addends : Node → List Node
  | ⟨kind, role, span, children⟩ =>
    match kind with
    | .sum =>
      match addendsIn? .left children, addendsIn? .right children with
      | some left, some right => left ++ right
      | _, _ => [⟨.sum, role, span, children⟩]
    | kind => [⟨kind, role, span, children⟩]

/-- The leaves of the first of the nodes in a role. -/
def addendsIn? (role : Role) : List Node → Option (List Node)
  | [] => none
  | n :: later => if n.role = some role then some n.addends else addendsIn? role later

end

/-- The values of a leaf of a kind: those of the innermost variable of its name, if it is an identifier and there are
any; else the text that it means, if it is a string literal that means one; else the leaf as it is written. -/
def valuesOf (bindings : List LoopBinding) (kind : Kind) (written : String) : List String :=
  if kind = .identifier then
    if (NameExpression.innermost? bindings written).getD [] = [] then [written]
    else (NameExpression.innermost? bindings written).getD []
  else if kind = .interpretedString ∨ kind = .rawString then
    [(StringLiteral.decode? written).getD written]
  else
    [written]

/-- The values of a leaf. -/
def leafValues (content : Bytes) (bindings : List LoopBinding) (leaf : Node) : List String :=
  valuesOf bindings leaf.kind (leaf.text content)

/-- The variables with values among the leaves of a name expression, as often as they are written. -/
def boundNames (content : Bytes) (bindings : List LoopBinding) (n : Node) : List String :=
  (n.addends.filter fun leaf => leaf.kind = .identifier ∧
    (NameExpression.innermost? bindings (leaf.text content)).getD [] ≠ []).map (·.text content)

/-- The form of a leaf. -/
def leafForm (content : Bytes) (leaf : Node) : NameForm :=
  let written := leaf.text content
  match leaf.kind with
  | .interpretedString | .rawString => .text ((StringLiteral.decode? written).getD written)
  | .identifier => .var written
  | _ => .text written

mutual

/-- The leaves of an expression have the forms of the leaves of its form. -/
theorem leaves_ofNode (content : Bytes) :
    ∀ n : Node, (NameForm.ofNode content n).leaves = n.addends.map (leafForm content)
  | ⟨kind, role, span, children⟩ => by
      have left := leaves_ofOperand? content .left children
      have right := leaves_ofOperand? content .right children
      cases kind with
      | sum =>
          rw [NameForm.ofNode, addends]
          cases hl : addendsIn? .left children with
          | none =>
              rw [hl, Option.map_none, Option.map_eq_none_iff] at left
              rw [left]
              rfl
          | some ls =>
              rw [hl, Option.map_some, Option.map_eq_some_iff] at left
              obtain ⟨l, hl', hleaves⟩ := left
              cases hr : addendsIn? .right children with
              | none =>
                  rw [hr, Option.map_none, Option.map_eq_none_iff] at right
                  rw [right, hl']
                  rfl
              | some rs =>
                  rw [hr, Option.map_some, Option.map_eq_some_iff] at right
                  obtain ⟨r, hr', hleaves'⟩ := right
                  rw [hl', hr', NameForm.leaves, hleaves, hleaves', List.map_append]
      | _ => simp only [NameForm.ofNode, addends, NameForm.leaves, List.map_singleton, leafForm, text]

/-- The leaves of an operand have the forms of the leaves of its form. -/
theorem leaves_ofOperand? (content : Bytes) (role : Role) :
    ∀ nodes : List Node, (NameForm.ofOperand? content role nodes).map NameForm.leaves =
      (addendsIn? role nodes).map (List.map (leafForm content))
  | [] => rfl
  | n :: later => by
      rw [NameForm.ofOperand?, addendsIn?]
      by_cases h : n.role = some role
      · rw [if_pos h, if_pos h, Option.map_some, Option.map_some, leaves_ofNode content n]
      · rw [if_neg h, if_neg h, leaves_ofOperand? content role later]

end

/-- A leaf has the values of its form. -/
theorem names_leafForm (content : Bytes) (bindings : List LoopBinding) (leaf : Node) :
    (leafForm content leaf).names bindings = leaf.leafValues content bindings := by
  rw [leafForm, leafValues]
  cases leaf.kind with
  | identifier => exact ofVariable_eq bindings _
  | _ => rfl

/-- The variables with values of an expression are those of its form. -/
theorem boundNames_ofNode (content : Bytes) (bindings : List LoopBinding) (n : Node) :
    (NameForm.ofNode content n).boundNames bindings = n.boundNames content bindings := by
  rw [NameForm.boundNames, leaves_ofNode, List.filterMap_map, boundNames, ← List.filterMap_eq_filter,
    List.map_filterMap]
  refine List.filterMap_congr fun leaf _ => ?_
  by_cases hk : leaf.kind = .identifier
  · by_cases hv : (NameExpression.innermost? bindings (leaf.text content)).getD [] = [] <;>
      simp [leafForm, hk, hv, NameForm.boundName?, Option.guard]
  · have other : NameForm.boundName? bindings (leafForm content leaf) = none := by
      unfold leafForm
      split <;> first | rfl | exact absurd ‹_› hk
    simp [other, hk, Option.guard]

end Node

/-! ### Expressions as they are written -/

/-- The names of an expression are the combinations of the values of its leaves, joined. -/
theorem names_eq_combinations_addends (content : Bytes) (bindings : List LoopBinding) (n : Node) :
    NameExpression.names content bindings n =
      (combinations (n.addends.map (·.leafValues content bindings))).map String.join := by
  rw [names_eq_names_ofNode, NameForm.names_eq_combinations, Node.leaves_ofNode, List.map_map]
  simp only [Function.comp_def, Node.names_leafForm]

/-- **Names are combinations of values.** The leaves of a name expression have their values. Take one value from each
leaf in all ways, in the lexicographic order of the numbers of the values taken, and join them: these are the names, in
this order. So there are as many names as the product of the numbers of values tells, and at least one; and another
expression with the same leaves has the same names, however its sums are grouped. If no variable with values is written
twice, the names are the values of the expression under all assignments of one of its values to each such variable, in
the lexicographic order of the numbers of the values assigned. -/
theorem names_eq_picks (content : Bytes) (bindings : List LoopBinding) (n : Node) :
    (∃ picks, AllPicks (n.addends.map (·.leafValues content bindings)) picks ∧
        NameExpression.names content bindings n =
          picks.map fun pick => String.join (picked (n.addends.map (·.leafValues content bindings)) pick)) ∧
      (NameExpression.names content bindings n).length =
        (n.addends.map fun leaf => (leaf.leafValues content bindings).length).prod ∧
      NameExpression.names content bindings n ≠ [] ∧
      (∀ content' n', n'.addends.map (fun leaf => (leaf.kind, leaf.text content')) =
          n.addends.map (fun leaf => (leaf.kind, leaf.text content)) →
        NameExpression.names content' bindings n' = NameExpression.names content bindings n) ∧
      ((n.boundNames content bindings).Nodup →
        ∃ picks, AllPicks ((n.boundNames content bindings).map (NameExpression.ofVariable bindings)) picks ∧
          NameExpression.names content bindings n = picks.map fun pick =>
            (NameForm.ofNode content n).under (NameForm.assigned (n.boundNames content bindings)
              (picked ((n.boundNames content bindings).map (NameExpression.ofVariable bindings)) pick))) := by
  refine ⟨?_, ?_, ?_, ?_, ?_⟩
  · obtain ⟨picks, hpicks, heq⟩ := exists_allPicks (n.addends.map (·.leafValues content bindings))
    exact ⟨picks, hpicks, by rw [names_eq_combinations_addends, heq, List.map_map]; rfl⟩
  · rw [names_eq_combinations_addends, List.length_map, length_combinations, List.map_map]
    rfl
  · rw [names_eq_names_ofNode]
    exact NameForm.names_ne_nil _ _
  · intro content' n' hsame
    have values (content : Bytes) (n : Node) : n.addends.map (·.leafValues content bindings) =
        (n.addends.map fun leaf => (leaf.kind, leaf.text content)).map fun leaf =>
          Node.valuesOf bindings leaf.1 leaf.2 := by
      rw [List.map_map]
      rfl
    rw [names_eq_combinations_addends, names_eq_combinations_addends, values, values, hsame]
  · intro once
    rw [← Node.boundNames_ofNode] at once ⊢
    obtain ⟨picks, hpicks, heq⟩ := exists_allPicks
      (((NameForm.ofNode content n).boundNames bindings).map (NameExpression.ofVariable bindings))
    refine ⟨picks, hpicks, ?_⟩
    rw [names_eq_names_ofNode, NameForm.names_eq_assignments once, heq, List.map_map]
    rfl

/-- Two variables with a dash between them. -/
def dashedNames : Bytes := Bytes.ofString "v+`-`+w"

/-- The expression in them, read from the left. -/
def dashedSum : Node :=
  ⟨.sum, none, ⟨0, 7⟩,
    [⟨.sum, some .left, ⟨0, 5⟩, [⟨.identifier, some .left, ⟨0, 1⟩, []⟩, ⟨.rawString, some .right, ⟨2, 5⟩, []⟩]⟩,
      ⟨.identifier, some .right, ⟨6, 7⟩, []⟩]⟩

/-- The expression in them, read from the right. -/
def dashedSumFromRight : Node :=
  ⟨.sum, none, ⟨0, 7⟩,
    [⟨.identifier, some .left, ⟨0, 1⟩, []⟩,
      ⟨.sum, some .right, ⟨2, 7⟩, [⟨.rawString, some .left, ⟨2, 5⟩, []⟩, ⟨.identifier, some .right, ⟨6, 7⟩, []⟩]⟩]⟩

/-- Loops over two values each, of which one hides a loop further out. -/
def dashedLoops : List LoopBinding := [⟨"w", ["0"]⟩, ⟨"v", ["a", "b"]⟩, ⟨"w", ["1", "2"]⟩]

/-- Two loop variables joined by a dash. -/
theorem names_eq_picks_dashedSum :
    NameExpression.names dashedNames dashedLoops dashedSum = ["a-1", "a-2", "b-1", "b-2"] ∧
      NameExpression.names dashedNames dashedLoops dashedSumFromRight =
        NameExpression.names dashedNames dashedLoops dashedSum ∧
      ∃ picks, AllPicks [["a", "b"], ["1", "2"]] picks ∧
        NameExpression.names dashedNames dashedLoops dashedSum = picks.map fun pick =>
          (NameForm.sum (.sum (.var "v") (.text "-")) (.var "w")).under
            (NameForm.assigned ["v", "w"] (picked [["a", "b"], ["1", "2"]] pick)) := by
  obtain ⟨-, -, -, regrouped, assignments⟩ := names_eq_picks dashedNames dashedLoops dashedSum
  have bound : dashedSum.boundNames dashedNames dashedLoops = ["v", "w"] := by decide +kernel
  have form : NameForm.ofNode dashedNames dashedSum = .sum (.sum (.var "v") (.text "-")) (.var "w") := by
    decide +kernel
  rw [bound, form] at assignments
  exact ⟨by decide +kernel, regrouped dashedNames dashedSumFromRight (by decide +kernel),
    assignments (by decide)⟩

end Go

end SuiteReport
