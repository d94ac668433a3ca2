import SuiteReport.Text.Lines
/-!
# Test units and suites

A test function and the sub-tests registered inside it form a tree of units; the units of one file form a
suite. Each unit carries, beside its readable name, the machine name under which test runners report it:
the names of its ancestors and its own, joined by slashes, with blanks turned into low lines.

## Main definitions

* `TestUnit.root`, `TestUnit.child`: units whose machine names are derived.
* `TestUnit.count`, `TestSuite.count`, `TestSuite.countAll`: the number of units.
* `TestUnit.preorder`: a unit and everything below it, parents before their children.
* `walk`: the same listing by an explicit stack of units that are still to be visited.
* `TestUnit.ancestry`: the segments of the machine name.
-/

namespace SuiteReport

/-- A test function, or a sub-test registered inside one. -/
structure TestUnit where
  /-- The readable name, in which loop values may have been filled in. -/
  name : String
  /-- The path under which test runners report the unit. -/
  machineName : String
  /-- The comment block that documents the unit, with its markers; empty if there is none. -/
  comment : String
  /-- The sub-tests, in the order of their registration. -/
  subtests : List TestUnit
deriving Repr, Inhabited

/-- The test units of one source file. -/
structure TestSuite where
  /-- The package, which is the first half of the keys of its results. -/
  package : String
  /-- The base name of the file. -/
  name : String
  /-- The comment of the package clause, if there is one. -/
  description : Option String
  /-- The test functions, in the order of their declaration. -/
  units : List TestUnit
deriving Repr, Inhabited

/-- What separates the segments of a machine name. -/
def machineSeparator : Char := '/'

/-- The segment that a name contributes to machine names: blanks become low lines. -/
def machineSegment (name : String) : String :=
  String.ofList (name.toList.map fun c => if c = ' ' then '_' else c)

/-- The machine name of the sub-test `name` below the unit with machine name `parent`. -/
def childMachineName (parent name : String) : String :=
  parent ++ String.ofList [machineSeparator] ++ machineSegment name

namespace TestUnit

/-- A test function. Its machine name begins the ancestry. -/
def root (name comment : String) (subtests : List TestUnit) : TestUnit :=
  { name, machineName := machineSegment name, comment, subtests }

/-- A sub-test below the unit whose machine name is `parent`. -/
def child (parent name comment : String) (subtests : List TestUnit) : TestUnit :=
  { name, machineName := childMachineName parent name, comment, subtests }

/-- The segments of the machine name, outermost first. -/
def ancestry (u : TestUnit) : List String :=
  (splitOn machineSeparator u.machineName.toList).map String.ofList

mutual

/-- The number of units in the tree, its root included. -/
def count : TestUnit → Nat
  | ⟨_, _, _, subtests⟩ => countAll subtests + 1

/-- The number of units in several trees. -/
def countAll : List TestUnit → Nat
  | [] => 0
  | u :: us => u.count + countAll us

end

mutual

/-- The unit and everything below it, each unit before its sub-tests. -/
def preorder : TestUnit → List TestUnit
  | ⟨name, machineName, comment, subtests⟩ =>
    ⟨name, machineName, comment, subtests⟩ :: preorderAll subtests

/-- The units of several trees, tree after tree. -/
def preorderAll : List TestUnit → List TestUnit
  | [] => []
  | u :: us => u.preorder ++ preorderAll us

end

theorem count_eq (u : TestUnit) : u.count = countAll u.subtests + 1 := by
  cases u
  simp [count]

theorem countAll_append (us vs : List TestUnit) :
    countAll (us ++ vs) = countAll us + countAll vs := by
  induction us with
  | nil => simp [countAll]
  | cons u us ih => simp [countAll, ih, Nat.add_assoc]

end TestUnit

/-- The units met when the unit on top of the stack is visited first and its sub-tests then take its
place. -/
def walk (stack : List TestUnit) : List TestUnit :=
  match stack with
  | [] => []
  | u :: rest => u :: walk (u.subtests ++ rest)
termination_by TestUnit.countAll stack
decreasing_by
  simp only [TestUnit.countAll, TestUnit.countAll_append, TestUnit.count_eq u]
  omega

namespace TestSuite

/-- The number of units in the suite, sub-tests included. -/
def count (s : TestSuite) : Nat := TestUnit.countAll s.units

/-- The number of units in several suites. -/
def countAll : List TestSuite → Nat
  | [] => 0
  | s :: suites => s.count + countAll suites

/-- All units of the suite, each before its sub-tests. -/
def allUnits (s : TestSuite) : List TestUnit := s.units.flatMap fun u => walk [u]

end TestSuite

end SuiteReport
