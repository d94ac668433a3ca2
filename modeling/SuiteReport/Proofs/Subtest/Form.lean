import Mathlib.Data.List.Basic
import SuiteReport.Go.NameExpression
/-!
# The form of a name expression

What matters of a name expression is how it is made up of three things: texts that are known, variables, and
sums. The form of an expression keeps just that. Its names under given bindings are then a matter of the form
alone, and so is its value once every use of a variable has been given a value.

## Main definitions

* `NameForm`: how an expression is made up, and `NameForm.ofNode`, the form of an expression.
* `NameForm.names`: the names of a form.
* `NameForm.evaluate`: the value of a form under a choice of values for the variables.
* `Fits`: whether a choice takes the values of the loop variables from their loops.
* `NameForm.uses`: the loop variables that a form uses, one entry for each use.

## Main results

* `names_eq_names_ofNode`: an expression has the names of its form.
* `NameForm.mem_names_iff`: the names of a form are its values when each use of a variable is given a value of
  its own.
* `NameForm.exists_evaluate_eq`: one choice for all uses will do where no loop with several values is used
  twice.
-/

namespace SuiteReport.Go

/-- How a name expression is made up. -/
inductive NameForm where
  /-- A text that is known without the bindings. -/
  | text (value : String)
  /-- A variable. -/
  | var (name : String)
  /-- Two forms, one after the other. -/
  | sum (left right : NameForm)
deriving DecidableEq, Repr

namespace NameForm

mutual

/-- The form of an expression: a string literal is the text that it means, an identifier is a variable, and
whatever is not followed further is the text as it is written. -/
def ofNode (content : Bytes) : Node → NameForm
  | ⟨kind, _, span, children⟩ =>
    let written := content.text span
    match kind with
    | .interpretedString | .rawString => .text ((StringLiteral.decode? written).getD written)
    | .identifier => .var written
    | .sum =>
      match ofOperand? content .left children, ofOperand? content .right children with
      | some left, some right => .sum left right
      | _, _ => .text written
    | _ => .text written

/-- The form of the first of the nodes in a role. -/
def ofOperand? (content : Bytes) (role : Role) : List Node → Option NameForm
  | [] => none
  | n :: later => if n.role = some role then some (ofNode content n) else ofOperand? content role later

end

/-- The names of a form: the values of a variable in their order, and of a sum every name of the left with
every name of the right. -/
def names (bindings : List LoopBinding) : NameForm → List String
  | text value => [value]
  | var name => NameExpression.ofVariable bindings name
  | sum left right => NameExpression.joined (left.names bindings) (right.names bindings)

end NameForm

mutual

/-- An expression has the names of its form. -/
theorem names_eq_names_ofNode (content : Bytes) (bindings : List LoopBinding) :
    ∀ n : Node, NameExpression.names content bindings n = (NameForm.ofNode content n).names bindings
  | ⟨kind, _, span, children⟩ => by
      have left := operandNames?_eq_map content bindings .left children
      have right := operandNames?_eq_map content bindings .right children
      cases kind with
      | sum =>
          rw [NameExpression.names, NameForm.ofNode, left, right]
          cases NameForm.ofOperand? content .left children with
          | none => rfl
          | some l => cases NameForm.ofOperand? content .right children <;> rfl
      | _ => simp only [NameExpression.names, NameForm.ofNode, NameForm.names]

/-- An operand has the names of its form. -/
theorem operandNames?_eq_map (content : Bytes) (bindings : List LoopBinding) (role : Role) :
    ∀ nodes : List Node, NameExpression.operandNames? content bindings role nodes =
      (NameForm.ofOperand? content role nodes).map (NameForm.names bindings)
  | [] => rfl
  | n :: later => by
      rw [NameExpression.operandNames?, NameForm.ofOperand?]
      by_cases h : n.role = some role
      · rw [if_pos h, if_pos h, names_eq_names_ofNode content bindings n, Option.map_some]
      · rw [if_neg h, if_neg h, operandNames?_eq_map content bindings role later]

end

/-- A variable goes through the values of its innermost binding, if that has any, and else stands for itself. -/
theorem ofVariable_eq (bindings : List LoopBinding) (name : String) :
    NameExpression.ofVariable bindings name =
      if (NameExpression.innermost? bindings name).getD [] = [] then [name]
      else (NameExpression.innermost? bindings name).getD [] := by
  rw [NameExpression.ofVariable]
  cases NameExpression.innermost? bindings name with
  | none => rfl
  | some values => cases values <;> rfl

/-! ### Choices of values -/

/-- The innermost binding of a variable, with its number from the outermost one. -/
def innermostAt? (bindings : List LoopBinding) (name : String) : Option (LoopBinding × Nat) :=
  bindings.zipIdx.reverse.find? (·.1.name == name)

/-- The number of the loop that gives a variable its values: that of the innermost binding of the variable, if
it has values. -/
def loopOf? (bindings : List LoopBinding) (name : String) : Option Nat :=
  ((innermostAt? bindings name).filter (!·.1.values.isEmpty)).map Prod.snd

/-- Whether a choice of a value for each loop takes the values from the loops. A loop without values leaves the
choice free. -/
def Fits (bindings : List LoopBinding) (pick : Nat → String) : Prop :=
  ∀ i b, bindings[i]? = some b → b.values ≠ [] → pick i ∈ b.values

/-- The numbering does not change which binding is the innermost. -/
theorem innermost?_eq_map (bindings : List LoopBinding) (name : String) :
    NameExpression.innermost? bindings name = (innermostAt? bindings name).map (·.1.values) := by
  have unnumbered : bindings.reverse = bindings.zipIdx.reverse.map Prod.fst := by simp
  rw [NameExpression.innermost?, unnumbered, List.find?_map, Option.map_map]
  rfl

/-- A variable with a loop goes through the values of that loop. -/
theorem ofVariable_of_loopOf?_eq_some {bindings : List LoopBinding} {name : String} {i : Nat}
    (h : loopOf? bindings name = some i) :
    ∃ b, bindings[i]? = some b ∧ b.values ≠ [] ∧ NameExpression.ofVariable bindings name = b.values := by
  obtain ⟨⟨b, j⟩, hf, rfl⟩ := Option.map_eq_some_iff.1 h
  obtain ⟨hat, hne⟩ := Option.filter_eq_some_iff.1 hf
  have hmem : (b, j) ∈ bindings.zipIdx := List.mem_reverse.1 (List.mem_of_find?_eq_some hat)
  have hb : b.values ≠ [] := by simpa using hne
  refine ⟨b, List.mk_mem_zipIdx_iff_getElem?.1 hmem, hb, ?_⟩
  rw [NameExpression.ofVariable, innermost?_eq_map, hat]
  cases hv : b.values with
  | nil => exact absurd hv hb
  | cons v vs => simp [hv]

/-- A variable without a loop stands for itself. -/
theorem ofVariable_of_loopOf?_eq_none {bindings : List LoopBinding} {name : String}
    (h : loopOf? bindings name = none) : NameExpression.ofVariable bindings name = [name] := by
  rw [loopOf?] at h
  rw [NameExpression.ofVariable, innermost?_eq_map]
  cases hat : innermostAt? bindings name with
  | none => rfl
  | some b =>
      have : b.1.values = [] := by simpa [hat, Option.filter] using h
      simp [this]

/-- There is always a choice that fits: the first value of each loop. -/
theorem exists_fits (bindings : List LoopBinding) : ∃ pick, Fits bindings pick := by
  refine ⟨fun i => ((bindings[i]?.bind (·.values.head?))).getD "", ?_⟩
  intro i b hb hne
  obtain ⟨v, vs, hv⟩ := List.exists_cons_of_ne_nil hne
  simp [hb, hv]

namespace NameForm

/-- The value of a form when `pick a i` is taken for the use of loop `i` at the address `a`, which leads to the
use through the operands of sums. A variable without a loop stands for itself. -/
def evaluate (bindings : List LoopBinding) (pick : List Role → Nat → String) : NameForm → String
  | text value => value
  | var name => ((loopOf? bindings name).map (pick [])).getD name
  | sum left right =>
    left.evaluate bindings (fun a => pick (.left :: a)) ++
      right.evaluate bindings (fun a => pick (.right :: a))

/-- The loops whose variables a form uses, from left to right, once for each use. -/
def uses (bindings : List LoopBinding) : NameForm → List Nat
  | text _ => []
  | var name => (loopOf? bindings name).toList
  | sum left right => left.uses bindings ++ right.uses bindings

/-- The choice for the uses in a sum that choices for those in its operands make up. No use has another address. -/
def joinPicks (left right : List Role → Nat → String) (first : Nat → String) : List Role → Nat → String
  | .left :: a => left a
  | .right :: a => right a
  | _ => first

theorem fits_joinPicks {bindings : List LoopBinding} {left right : List Role → Nat → String} {first : Nat → String}
    (hleft : ∀ a, Fits bindings (left a)) (hright : ∀ a, Fits bindings (right a)) (hfirst : Fits bindings first)
    (a : List Role) : Fits bindings (joinPicks left right first a) := by
  simp only [joinPicks]
  split
  · exact hleft _
  · exact hright _
  · exact hfirst

/-- **The names of a form are its values.** A string is a name of a form exactly if it is the value of the form
under some choice that gives every use of a variable a value of its loop, each use on its own. -/
theorem mem_names_iff {bindings : List LoopBinding} {f : NameForm} {name : String} :
    name ∈ f.names bindings ↔
      ∃ pick, (∀ a, Fits bindings (pick a)) ∧ f.evaluate bindings pick = name := by
  obtain ⟨first, hfirst⟩ := exists_fits bindings
  induction f generalizing name with
  | text value =>
      rw [names, List.mem_singleton]
      exact ⟨fun h => ⟨fun _ => first, fun _ => hfirst, h.symm⟩, fun ⟨_, _, h⟩ => h.symm⟩
  | var v =>
      simp only [names, evaluate]
      cases hl : loopOf? bindings v with
      | none =>
          rw [ofVariable_of_loopOf?_eq_none hl, List.mem_singleton]
          exact ⟨fun h => ⟨fun _ => first, fun _ => hfirst, h.symm⟩, fun ⟨_, _, h⟩ => h.symm⟩
      | some i =>
          obtain ⟨b, hb, hne, hv⟩ := ofVariable_of_loopOf?_eq_some hl
          rw [hv]
          constructor
          · intro hname
            refine ⟨fun _ j => if j = i then name else first j, ?_, by simp⟩
            intro _ j c hc hcne
            by_cases hj : j = i
            · obtain rfl : c = b := by
                rw [hj, hb] at hc
                exact (Option.some.inj hc).symm
              simpa [hj] using hname
            · simpa [hj] using hfirst j c hc hcne
          · rintro ⟨pick, hpick, rfl⟩
            exact hpick [] i b hb hne
  | sum left right ihl ihr =>
      simp only [names, NameExpression.joined, List.mem_flatMap, List.mem_map, evaluate]
      constructor
      · rintro ⟨l, hl, r, hr, rfl⟩
        obtain ⟨pickl, hpickl, rfl⟩ := ihl.1 hl
        obtain ⟨pickr, hpickr, rfl⟩ := ihr.1 hr
        exact ⟨joinPicks pickl pickr first, fits_joinPicks hpickl hpickr hfirst, rfl⟩
      · rintro ⟨pick, hpick, rfl⟩
        exact ⟨_, ihl.2 ⟨fun a => pick (.left :: a), fun a => hpick _, rfl⟩,
          _, ihr.2 ⟨fun a => pick (.right :: a), fun a => hpick _, rfl⟩, rfl⟩

/-- The value of a form depends on the choice only at the loops that the form uses. -/
theorem evaluate_congr {bindings : List LoopBinding} {f : NameForm} {pick pick' : Nat → String}
    (h : ∀ i ∈ f.uses bindings, pick i = pick' i) :
    f.evaluate bindings (fun _ => pick) = f.evaluate bindings (fun _ => pick') := by
  induction f with
  | text value => rfl
  | var name =>
      simp only [evaluate]
      cases hl : loopOf? bindings name with
      | none => rfl
      | some i => exact h i (by simp [uses, hl])
  | sum left right ihl ihr =>
      rw [evaluate, evaluate, ihl fun i hi => h i (by simp [uses, hi]),
        ihr fun i hi => h i (by simp [uses, hi])]

/-- A form uses only loops that have values. -/
theorem exists_values_of_mem_uses {bindings : List LoopBinding} {f : NameForm} {i : Nat}
    (h : i ∈ f.uses bindings) : ∃ b, bindings[i]? = some b ∧ b.values ≠ [] := by
  induction f with
  | text value => cases h
  | var name =>
      obtain ⟨b, hb, hne, -⟩ := ofVariable_of_loopOf?_eq_some (Option.mem_toList.1 h)
      exact ⟨b, hb, hne⟩
  | sum left right ihl ihr => exact (List.mem_append.1 h).elim ihl ihr

end NameForm

/-! ### One choice for several uses -/

/-- Whether the loops that are used more than once have a single value each. -/
def UsedOnce (bindings : List LoopBinding) (uses : List Nat) : Prop :=
  ∀ i b, bindings[i]? = some b → 1 < uses.count i → ∀ v ∈ b.values, ∀ w ∈ b.values, v = w

/-- The loops of a scope have to be looked through once. -/
theorem usedOnce_iff {bindings : List LoopBinding} {uses : List Nat} :
    UsedOnce bindings uses ↔
      ∀ p ∈ bindings.zipIdx, 1 < uses.count p.2 → ∀ v ∈ p.1.values, ∀ w ∈ p.1.values, v = w := by
  constructor
  · rintro once ⟨b, i⟩ hp
    exact once i b (List.mem_zipIdx_iff_getElem?.1 hp)
  · intro once i b hb
    exact once ⟨b, i⟩ (List.mem_zipIdx_iff_getElem?.2 hb)

instance (bindings : List LoopBinding) (uses : List Nat) : Decidable (UsedOnce bindings uses) :=
  decidable_of_iff _ usedOnce_iff.symm

/-- Two choices can be taken together where the loops that both are asked for have a single value. -/
theorem Fits.exists_common {bindings : List LoopBinding} {pick pick' : Nat → String} {us vs : List Nat}
    (h : Fits bindings pick) (h' : Fits bindings pick')
    (hus : ∀ i ∈ us, ∃ b, bindings[i]? = some b ∧ b.values ≠ []) (once : UsedOnce bindings (us ++ vs)) :
    ∃ common, Fits bindings common ∧ (∀ i ∈ us, common i = pick i) ∧ ∀ i ∈ vs, common i = pick' i := by
  refine ⟨fun i => if i ∈ us then pick i else pick' i, ?_, ?_, ?_⟩
  · intro i b hb hne
    by_cases hi : i ∈ us
    · simpa [hi] using h i b hb hne
    · simpa [hi] using h' i b hb hne
  · intro i hi
    simp [hi]
  · intro i hi
    by_cases hu : i ∈ us
    · obtain ⟨b, hb, hne⟩ := hus i hu
      have twice : 1 < (us ++ vs).count i := by
        have := List.count_pos_iff.2 hi
        have := List.count_pos_iff.2 hu
        rw [List.count_append]
        omega
      simpa [hu] using once i b hb twice _ (h i b hb hne) _ (h' i b hb hne)
    · simp [hu]

/-- The loops of a scope have the same numbers in every scope further in. -/
theorem getElem?_inner {scope inner : List LoopBinding} (hp : scope <+: inner) {i : Nat} {b : LoopBinding}
    (h : scope[i]? = some b) : inner[i]? = some b := by
  obtain ⟨more, rfl⟩ := hp
  obtain ⟨hi, -⟩ := List.getElem?_eq_some_iff.1 h
  rw [List.getElem?_append_left hi, h]

/-- A choice that fits a scope fits every scope further out. -/
theorem Fits.restrict {scope inner : List LoopBinding} {pick : Nat → String} (h : Fits inner pick)
    (hp : scope <+: inner) : Fits scope pick :=
  fun i b hb => h i b (getElem?_inner hp hb)

/-- A choice for a scope can be extended to every scope further in. -/
theorem Fits.exists_extension {scope inner : List LoopBinding} {pick : Nat → String} (h : Fits scope pick)
    (hp : scope <+: inner) :
    ∃ pick', Fits inner pick' ∧ ∀ i b, scope[i]? = some b → pick' i = pick i := by
  obtain ⟨first, hfirst⟩ := exists_fits inner
  refine ⟨fun i => if i < scope.length then pick i else first i, ?_, ?_⟩
  · intro i b hb hne
    by_cases hi : i < scope.length
    · obtain ⟨more, rfl⟩ := hp
      rw [List.getElem?_append_left hi] at hb
      simpa [hi] using h i b hb hne
    · simpa [hi] using hfirst i b hb hne
  · intro i b hb
    obtain ⟨hi, -⟩ := List.getElem?_eq_some_iff.1 hb
    simp [hi]

/-- What is used once in a scope is used once in every scope further out. -/
theorem UsedOnce.restrict {scope inner : List LoopBinding} {us : List Nat} (h : UsedOnce inner us)
    (hp : scope <+: inner) : UsedOnce scope us :=
  fun i b hb => h i b (getElem?_inner hp hb)

/-- Fewer uses are used once if more are. -/
theorem UsedOnce.of_sublist {bindings : List LoopBinding} {us vs : List Nat} (h : UsedOnce bindings vs)
    (hs : us.Sublist vs) : UsedOnce bindings us :=
  fun i b hb hc => h i b hb (Nat.lt_of_lt_of_le hc (hs.count_le i))

/-- **One choice for all uses of a form.** A value that a form has under separate choices for its uses is a
value under one choice, provided that the loops used more than once have a single value each. -/
theorem NameForm.exists_evaluate_eq {bindings : List LoopBinding} {f : NameForm}
    {pick : List Role → Nat → String} (h : ∀ a, Fits bindings (pick a))
    (once : UsedOnce bindings (f.uses bindings)) :
    ∃ common, Fits bindings common ∧
      f.evaluate bindings (fun _ => common) = f.evaluate bindings pick := by
  induction f generalizing pick with
  | text value => exact ⟨pick [], h [], rfl⟩
  | var name => exact ⟨pick [], h [], rfl⟩
  | sum left right ihl ihr =>
      obtain ⟨pickl, hpickl, hl⟩ := ihl (fun a => h (.left :: a))
        (once.of_sublist (List.sublist_append_left _ _))
      obtain ⟨pickr, hpickr, hr⟩ := ihr (fun a => h (.right :: a))
        (once.of_sublist (List.sublist_append_right _ _))
      obtain ⟨common, hcommon, hcl, hcr⟩ :=
        hpickl.exists_common hpickr (fun _ => exists_values_of_mem_uses) once
      refine ⟨common, hcommon, ?_⟩
      rw [evaluate, evaluate, evaluate_congr hcl, evaluate_congr hcr, hl, hr]

end SuiteReport.Go
