import Mathlib.Algebra.Ring.Nat
import Mathlib.Logic.Function.Iterate
import SuiteReport.Proofs.Report.Table
import SuiteReport.Report.Response
import SuiteReport.Suite.Outline
/-!
# Going through the units of a suite

The units of a suite are gone through in several ways: by a stack of units that are still to be visited, and by
recursion where they are counted, listed in an outline and put into a table. This module proves that all of them meet
the same units in the same order. The stack always holds the roots of what is still to be visited, so what it will
yield is the pre-order of the trees on it; and in pre-order the units stand in the lexicographic order of their
positions, each position once.

## Main definitions

* `advance`: the stack after the unit on top of it has been visited.
* `TestUnit.at?`, `TestUnit.positions`: the unit at a position, and all positions in a tree.
* `TestUnit.outlineEntry`: what an outline says about one unit.

## Main results

* `walk_eq_preorderAll`, `head?_advance_iterate`: what a stack yields, as a whole and step by step.
* `TestUnit.pairwise_positions`, `TestUnit.mem_positions_iff`, `TestUnit.map_at?_positions`: the positions in a tree.
* `traversals_agree`: all ways of going through the units of suites agree.
-/

namespace SuiteReport

open Markdown (places placesAll map_snd_places map_snd_placesAll length_preorder length_preorderAll table rowText cells
  placesAll_eq_flatMap toList_table)

/-! ### The stack -/

/-- The units of several trees are listed tree after tree. -/
theorem TestUnit.preorderAll_append (us vs : List TestUnit) :
    preorderAll (us ++ vs) = preorderAll us ++ preorderAll vs := by
  induction us with
  | nil => rfl
  | cons u us ih => rw [List.cons_append, preorderAll, preorderAll, ih, List.append_assoc]

/-- A unit comes before those below it, and these come before the trees behind it. -/
theorem TestUnit.preorderAll_cons (u : TestUnit) (us : List TestUnit) :
    preorderAll (u :: us) = u :: preorderAll (u.subtests ++ us) := by
  cases u
  rw [preorderAll, preorder, preorderAll_append]
  rfl

/-- **What a stack yields** is the pre-order of the trees on it. The induction is on what is still to be visited. -/
theorem walk_eq_preorderAll (stack : List TestUnit) : walk stack = TestUnit.preorderAll stack := by
  fun_induction walk stack with
  | case1 => rfl
  | case2 u rest ih => rw [ih, TestUnit.preorderAll_cons]

/-- The stack after the unit on top of it has been visited: its sub-tests have taken its place. -/
def advance : List TestUnit → List TestUnit
  | [] => []
  | u :: rest => u.subtests ++ rest

/-- **The stack step by step.** After any number of visits the next unit is the one that has this number in pre-order,
and there is none if there are not so many units. -/
theorem head?_advance_iterate (n : Nat) (stack : List TestUnit) :
    (advance^[n] stack).head? = (TestUnit.preorderAll stack)[n]? := by
  induction n generalizing stack with
  | zero =>
      cases stack with
      | nil => rfl
      | cons u rest => rw [TestUnit.preorderAll_cons]; rfl
  | succ n ih =>
      rw [Function.iterate_succ_apply, ih]
      cases stack with
      | nil => rfl
      | cons u rest => rw [TestUnit.preorderAll_cons, List.getElem?_cons_succ, advance]

/-- The units of a suite by the stack are those of its trees. -/
theorem TestSuite.allUnits_eq (s : TestSuite) : s.allUnits = TestUnit.preorderAll s.units := by
  rw [allUnits]
  induction s.units with
  | nil => rfl
  | cons u us ih =>
      rw [List.flatMap_cons, ih, walk_eq_preorderAll, ← TestUnit.preorderAll_append, List.singleton_append]

/-- The stack yields as many units as are counted in the suite. -/
theorem TestSuite.length_allUnits (s : TestSuite) : s.allUnits.length = s.count := by
  rw [allUnits_eq, length_preorderAll, count]

/-! ### Positions -/

namespace TestUnit

/-- The unit at a position in a tree: a position says at each level which sub-test to go to. -/
def at? (u : TestUnit) : List Nat → Option TestUnit
  | [] => some u
  | n :: position => u.subtests[n]?.bind (·.at? position)

mutual

/-- The positions in a tree, in pre-order. -/
def positions : TestUnit → List (List Nat)
  | ⟨_, _, _, subtests⟩ => [] :: positionsFrom 0 subtests

/-- The positions in several trees next to each other, of which the first has the number `n`. -/
def positionsFrom (n : Nat) : List TestUnit → List (List Nat)
  | [] => []
  | u :: us => u.positions.map (n :: ·) ++ positionsFrom (n + 1) us

end

theorem positions_eq (u : TestUnit) : u.positions = [] :: positionsFrom 0 u.subtests := by
  cases u
  rw [positions]

/-- A position in several trees is the number of a tree and a position in it. -/
theorem mem_positionsFrom_iff {n : Nat} {us : List TestUnit} {position : List Nat} :
    position ∈ positionsFrom n us ↔
      ∃ m u below, us[m]? = some u ∧ below ∈ u.positions ∧ position = (n + m) :: below := by
  induction us generalizing n with
  | nil => simp [positionsFrom]
  | cons u us ih =>
      rw [positionsFrom, List.mem_append, ih, List.mem_map]
      constructor
      · rintro (⟨below, hbelow, rfl⟩ | ⟨m, v, below, hv, hbelow, rfl⟩)
        · exact ⟨0, u, below, rfl, hbelow, rfl⟩
        · exact ⟨m + 1, v, below, hv, hbelow, by rw [Nat.add_right_comm]; rfl⟩
      · rintro ⟨m, v, below, hv, hbelow, rfl⟩
        cases m with
        | zero =>
            obtain rfl : u = v := Option.some.inj hv
            exact .inl ⟨below, hbelow, rfl⟩
        | succ m => exact .inr ⟨m, v, below, hv, hbelow, by rw [Nat.add_right_comm]; rfl⟩

/-- **The positions are those where there is a unit.** -/
theorem mem_positions_iff {u : TestUnit} {position : List Nat} :
    position ∈ u.positions ↔ (u.at? position).isSome := by
  induction position generalizing u with
  | nil => simp [positions_eq, at?]
  | cons n below ih =>
      have child : n :: below ∈ positionsFrom 0 u.subtests ↔
          ∃ v, u.subtests[n]? = some v ∧ below ∈ v.positions := by
        rw [mem_positionsFrom_iff]
        constructor
        · rintro ⟨m, v, below', hv, hbelow, he⟩
          obtain ⟨rfl, rfl⟩ := List.cons.inj he
          exact ⟨v, by rwa [Nat.zero_add], hbelow⟩
        · rintro ⟨v, hv, hbelow⟩
          exact ⟨n, v, below, hv, hbelow, by rw [Nat.zero_add]⟩
      rw [positions_eq, List.mem_cons, or_iff_right (List.cons_ne_nil _ _), child, at?]
      cases u.subtests[n]? with
      | none => simp
      | some v => simp [ih]

mutual

/-- **The positions are in order**, each before those that follow it lexicographically. -/
theorem pairwise_positions : ∀ u : TestUnit, u.positions.Pairwise (· < ·)
  | ⟨name, machineName, comment, subtests⟩ => by
      rw [positions, List.pairwise_cons]
      refine ⟨?_, pairwise_positionsFrom 0 subtests⟩
      intro position h
      obtain ⟨m, v, below, -, -, rfl⟩ := mem_positionsFrom_iff.1 h
      exact List.nil_lt_cons _ _

/-- The positions in trees next to each other are in order. -/
theorem pairwise_positionsFrom (n : Nat) : ∀ us : List TestUnit, (positionsFrom n us).Pairwise (· < ·)
  | [] => List.Pairwise.nil
  | u :: us => by
      rw [positionsFrom, List.pairwise_append]
      refine ⟨?_, pairwise_positionsFrom (n + 1) us, ?_⟩
      · rw [List.pairwise_map]
        exact (pairwise_positions u).imp fun h => List.cons_lt_cons_iff.2 (.inr ⟨rfl, h⟩)
      · intro position hposition other hother
        obtain ⟨below, -, rfl⟩ := List.mem_map.1 hposition
        obtain ⟨m, v, below', -, -, rfl⟩ := mem_positionsFrom_iff.1 hother
        exact List.cons_lt_cons_iff.2 (.inl (by omega))

end

mutual

/-- **The units at the positions** of a tree are its units in pre-order. -/
theorem map_at?_positions : ∀ u : TestUnit, u.positions.map u.at? = u.preorder.map some
  | ⟨name, machineName, comment, subtests⟩ => by
      rw [positions, preorder, List.map_cons, List.map_cons,
        map_positionsFrom (f := at? ⟨name, machineName, comment, subtests⟩) 0 subtests fun m below => ?_]
      · rfl
      · rw [Nat.zero_add, at?]

/-- The units at positions in trees next to each other, where `f` goes to the tree with the number and to the
position in it. -/
theorem map_positionsFrom {f : List Nat → Option TestUnit} (n : Nat) : ∀ us : List TestUnit,
    (∀ m below, f ((n + m) :: below) = us[m]?.bind (·.at? below)) →
      (positionsFrom n us).map f = (preorderAll us).map some
  | [], _ => rfl
  | u :: us, hf => by
      -- the first tree has the number `n`, and the others are numbered from `n + 1` on
      have first : (f ∘ (n :: ·)) = u.at? := funext fun below => hf 0 below
      have others (m : Nat) (below : List Nat) : f ((n + 1 + m) :: below) = us[m]?.bind (·.at? below) := by
        rw [Nat.add_right_comm]
        exact hf (m + 1) below
      rw [positionsFrom, preorderAll, List.map_append, List.map_append, List.map_map, first, map_at?_positions u,
        map_positionsFrom (n + 1) us others]

end

mutual

/-- In a tree there are as many names above a unit as its position has numbers. -/
theorem map_length_places (above : List String) : ∀ u : TestUnit,
    (places above u).map (·.1.length) = u.positions.map fun position => above.length + position.length
  | ⟨name, machineName, comment, subtests⟩ => by
      rw [places, positions, List.map_cons, List.map_cons, map_length_placesAll (above ++ [name]) 0 subtests]
      refine congrArg _ (List.map_congr_left fun position h => ?_)
      obtain ⟨m, v, below, -, -, rfl⟩ := mem_positionsFrom_iff.1 h
      simp only [List.length_append, List.length_cons, List.length_nil]
      omega

/-- Of the numbers of a position in trees next to each other the first one tells the tree. -/
theorem map_length_placesAll (above : List String) (n : Nat) : ∀ us : List TestUnit,
    (placesAll above us).map (·.1.length) =
      (positionsFrom n us).map fun position => above.length + (position.length - 1)
  | [] => rfl
  | u :: us => by
      rw [placesAll, positionsFrom, List.map_append, List.map_append, map_length_places above u,
        map_length_placesAll above (n + 1) us, List.map_map]
      rfl

end

end TestUnit

/-! ### The outline -/

/-- The indentation at a depth: two blanks for each level. -/
def indentation (depth : Nat) : String := String.ofList (List.replicate (2 * depth) ' ')

/-- **What an outline says about one unit**: its names and, if it has one, its comment, which is not indented. -/
def TestUnit.outlineEntry (depth : Nat) (u : TestUnit) : String :=
  indentation depth ++ "Test: " ++ u.name ++ "\n"
    ++ indentation depth ++ "Machine Name: " ++ u.machineName ++ "\n"
    ++ (if u.comment.isEmpty then "" else indentation depth ++ "Comments:\n" ++ u.comment ++ "\n")

/-- What an outline says about a suite before it comes to the units. -/
def TestSuite.outlineHead (s : TestSuite) : String :=
  "Package: " ++ s.package ++ "\n"
    ++ "Suite: " ++ s.name ++ "\n"
    ++ (match s.description with
        | none => ""
        | some description => "Comments:\n" ++ description ++ "\n")

theorem indentation_succ (depth : Nat) : indentation (depth + 1) = indentation depth ++ "  " := by
  have blanks : "  ".toList = List.replicate 2 ' ' := rfl
  rw [← String.toList_inj, String.toList_append, indentation, indentation, String.toList_ofList,
    String.toList_ofList, blanks, ← List.replicate_add, Nat.mul_succ]

/-- The text of what several places are turned into is that of the one and of the others. -/
theorem join_map_append {α : Type} (f : α → String) (first later : List α) :
    String.join ((first ++ later).map f) = String.join (first.map f) ++ String.join (later.map f) := by
  rw [List.map_append, String.join_append]

mutual

/-- The outline of a unit has an entry for each unit of its tree. -/
theorem outline_eq_join (above : List String) : ∀ u : TestUnit,
    u.outline (indentation above.length) =
      String.join ((places above u).map fun place => place.2.outlineEntry place.1.length)
  | ⟨name, machineName, comment, subtests⟩ => by
      have deeper : indentation above.length ++ "  " = indentation (above ++ [name]).length := by
        rw [List.length_append, List.length_singleton, indentation_succ]
      rw [TestUnit.outline, places, List.map_cons, String.join_cons, deeper,
        outlineAll_eq_join (above ++ [name]) subtests]
      rfl

/-- **The outline of several units has an entry for each unit** of their trees, in pre-order. -/
theorem outlineAll_eq_join (above : List String) : ∀ us : List TestUnit,
    TestUnit.outlineAll (indentation above.length) us =
      String.join ((placesAll above us).map fun place => place.2.outlineEntry place.1.length)
  | [] => rfl
  | u :: us => by
      rw [TestUnit.outlineAll, placesAll, join_map_append, outline_eq_join above u, outlineAll_eq_join above us]

end

/-- The outline of a suite. -/
theorem TestSuite.outline_eq_join (s : TestSuite) :
    s.outline = s.outlineHead ++
      String.join ((placesAll [] s.units).map fun place => place.2.outlineEntry place.1.length) := by
  have top : indentation ([] : List String).length = "" := rfl
  rw [← outlineAll_eq_join, top]
  rfl

/-! ### All ways of going through the units -/

/-- The units of several suites are counted suite by suite. -/
theorem TestSuite.countAll_eq_sum (suites : List TestSuite) :
    countAll suites = (suites.map (·.allUnits.length)).sum := by
  induction suites with
  | nil => rfl
  | cons s suites ih => rw [countAll, List.map_cons, List.sum_cons, length_allUnits, ih]

/-- **All ways of going through the units agree.** The stack that starts with a unit yields the units of its tree in
pre-order, one at each step, and then no more; these are the units at the positions of the tree, each position once and
in order. For each suite, its table has a row for each unit that the stack yields, in the same order. The outline of
some suites has an entry for each of them, in the same order and indented by two blanks for each unit above it. And the
number of units that a response tells is how many the stack yields for all suites. -/
theorem traversals_agree :
    (∀ u : TestUnit,
      walk [u] = u.preorder ∧ (walk [u]).length = u.count ∧ (∀ n, (advance^[n] [u]).head? = (walk [u])[n]?) ∧
        u.positions.map u.at? = (walk [u]).map some ∧ u.positions.Pairwise (· < ·) ∧
        (∀ position, position ∈ u.positions ↔ (u.at? position).isSome) ∧
        (places [] u).map Prod.snd = walk [u] ∧ (places [] u).map (·.1.length) = u.positions.map List.length) ∧
    (∀ s : TestSuite,
      s.allUnits.length = s.count ∧ (placesAll [] s.units).map Prod.snd = s.allUnits ∧
        placesAll [] s.units = s.units.flatMap (places []) ∧
        ∀ results limit, (table results limit s).toList =
          ((placesAll [] s.units).map fun place => rowText (cells results limit s.package place)).flatMap
            (· ++ ['\n'])) ∧
    ∀ suites : List TestSuite,
      outline suites = String.join (suites.map fun s => s.outlineHead ++
        String.join ((placesAll [] s.units).map fun place => place.2.outlineEntry place.1.length)) ∧
      Response.list suites = Response.withStatus "ok"
        [("unit_count", .number (suites.map (·.allUnits.length)).sum),
          ("suites", .array (suites.map Response.ofSuite))] := by
  refine ⟨fun u => ?_, fun s => ?_, fun suites => ⟨?_, ?_⟩⟩
  · have single : TestUnit.preorderAll [u] = u.preorder := List.append_nil _
    have yielded : walk [u] = u.preorder := (walk_eq_preorderAll [u]).trans single
    have depths : (places [] u).map (·.1.length) = u.positions.map List.length := by
      simpa using u.map_length_places []
    rw [yielded, ← single]
    refine ⟨rfl, ?_, fun n => head?_advance_iterate n [u], ?_, u.pairwise_positions,
      fun position => TestUnit.mem_positions_iff, ?_, depths⟩
    · rw [single, length_preorder]
    · rw [single, u.map_at?_positions]
    · rw [single, map_snd_places]
  · exact ⟨s.length_allUnits, by rw [map_snd_placesAll, s.allUnits_eq], placesAll_eq_flatMap [] s.units,
      fun results limit => toList_table results limit s⟩
  · rw [outline]
    exact congrArg String.join (List.map_congr_left fun s _ => s.outline_eq_join)
  · rw [Response.list, TestSuite.countAll_eq_sum]

end SuiteReport
