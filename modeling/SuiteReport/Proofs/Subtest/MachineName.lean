import Mathlib.Data.List.Chain
import SuiteReport.Proofs.Source.Function
import SuiteReport.Proofs.Subtest.Choice
import SuiteReport.Proofs.Text.Split
/-!
# Machine names and ancestry

The machine name of a unit is made up along the way down to it: a test function has its own name, and each
sub-test adds a slash and its name with blanks turned into low lines. So splitting the machine name at slashes
gives one segment for each unit on the way, unless the name of a sub-test holds a slash itself; the name of a
test function cannot, because it is an identifier.

## Main results

* `UnitPath.isChain_machineName`: the machine names on a way down continue one another.
* `splitOn_machineName_getLast`: the segments of a machine name come from the names on the way down.
* `machineName_of_unitPath`: the units of a suite have the machine names of their ancestry.
-/

namespace SuiteReport

/-! ### Segments -/

/-- A segment is the name, character by character, with low lines in the place of blanks. -/
theorem toList_machineSegment (name : String) :
    (machineSegment name).toList = name.toList.map fun c => if c = ' ' then '_' else c := by
  rw [machineSegment, String.toList_ofList]

/-- The machine name of a sub-test is that of its parent with a slash and a segment behind it. -/
theorem toList_childMachineName (parent name : String) :
    (childMachineName parent name).toList = parent.toList ++ '/' :: (machineSegment name).toList := by
  simp [childMachineName, machineSeparator]

/-- A segment holds a slash exactly if the name does. -/
theorem slash_mem_machineSegment {name : String} : '/' ∈ (machineSegment name).toList ↔ '/' ∈ name.toList := by
  rw [toList_machineSegment, List.mem_map]
  constructor
  · rintro ⟨c, hc, h⟩
    by_cases hblank : c = ' '
    · simp [hblank] at h
    · rw [if_neg hblank] at h
      rwa [← h]
  · intro h
    exact ⟨'/', h, rfl⟩

/-- A name without blanks is its own segment. -/
theorem machineSegment_eq_self {name : String} (h : ' ' ∉ name.toList) : machineSegment name = name := by
  have same : (name.toList.map fun c => if c = ' ' then '_' else c) = name.toList := by
    conv_rhs => rw [← List.map_id name.toList]
    refine List.map_congr_left ?_
    intro c hc
    rw [if_neg, id]
    rintro rfl
    exact h hc
  rw [machineSegment, same, String.ofList_toList]

namespace Go

variable {s : Scope} {body : Node} {parent : String} {bindings : List LoopBinding} {path : List TestUnit}

/-! ### Ways down -/

/-- Every unit that the search finds continues the machine name of the unit above it. -/
theorem machineName_of_mem_subtests {u : TestUnit} (h : u ∈ subtests s body parent bindings) :
    u.machineName = childMachineName parent u.name := by
  obtain ⟨o, -, name, -, hu⟩ := exists_registration_of_mem_subtests h
  obtain ⟨unitName, -, rfl⟩ := List.mem_map.1 hu
  rfl

/-- **The machine names on a way down** continue one another, from the unit above it on. -/
theorem UnitPath.isChain_machineName (h : UnitPath (subtests s body parent bindings) path) (top : TestUnit)
    (htop : top.machineName = parent) :
    (top :: path).IsChain fun above u => u.machineName = childMachineName above.machineName u.name := by
  generalize hunits : subtests s body parent bindings = units at h
  induction h generalizing body parent bindings top with
  | single hu =>
      subst hunits htop
      exact List.isChain_pair.2 (machineName_of_mem_subtests hu)
  | @down units path u hu rest ih =>
      subst hunits htop
      obtain ⟨o, -, name, hn, hunit⟩ := exists_registration_of_mem_subtests hu
      obtain ⟨inner, -, hsub⟩ := exists_callbackBody_of_mem_units hn hunit rest.ne_nil.1
      exact .cons_cons (machineName_of_mem_subtests hu) (ih u rfl hsub.symm)

/-- **The segments of a machine name** are those of the machine name that the way down begins with and those of
the names further down. -/
theorem splitOn_machineName_getLast {top : TestUnit}
    (h : (top :: path).IsChain fun above u => u.machineName = childMachineName above.machineName u.name) :
    splitOn '/' ((top :: path).getLast (List.cons_ne_nil _ _)).machineName.toList =
      splitOn '/' top.machineName.toList ++
        path.flatMap fun u => splitOn '/' (machineSegment u.name).toList := by
  induction path generalizing top with
  | nil => simp
  | cons u path ih =>
      obtain ⟨hu, hrest⟩ := List.isChain_cons_cons.1 h
      rw [List.getLast_cons (List.cons_ne_nil _ _), ih hrest, hu, toList_childMachineName,
        splitOn_append_cons, List.flatMap_cons, List.append_assoc]

/-! ### The units of a suite -/

/-- The unit of a test function has the name of the function and the sub-tests registered in it. -/
theorem Scope.testFunction?_eq_some {testPrefix : String} {n : Node} {u : TestUnit}
    (h : s.testFunction? testPrefix n = some u) :
    s.functionName? n = some u.name ∧ u.machineName = machineSegment u.name ∧
      u.subtests = s.subtestsOf n u.name := by
  obtain ⟨name, hname, h⟩ := Option.bind_eq_some_iff.1 h
  obtain ⟨_, -, h⟩ := Option.bind_eq_some_iff.1 h
  obtain rfl := Option.some.inj h
  exact ⟨hname, rfl, rfl⟩

/-- The units of a suite are the test functions of its file. -/
theorem Source.units_of_suite? {f : Source} {settings : Settings} {package name : String} {suite : TestSuite}
    (h : f.suite? settings package name = some suite) :
    suite.units = f.functions.filterMap ((f.scope settings).testFunction? settings.testPrefix) := by
  rw [Source.suite?] at h
  split at h
  · cases h
  · obtain rfl := Option.some.inj h
    rfl

/-- A file with a test function makes up a suite that has its unit. -/
theorem Source.exists_suite? {f : Source} {settings : Settings} {n : Node} {u : TestUnit} (hn : n ∈ f.functions)
    (hu : (f.scope settings).testFunction? settings.testPrefix n = some u) (package name : String) :
    ∃ suite, f.suite? settings package name = some suite ∧ u ∈ suite.units := by
  have hmem := List.mem_filterMap.2 ⟨n, hn, hu⟩
  cases hs : f.suite? settings package name with
  | some suite => exact ⟨suite, rfl, by rwa [Source.units_of_suite? hs]⟩
  | none =>
      rw [Source.suite?] at hs
      split at hs
      next hnone => exact absurd hnone (List.ne_nil_of_mem hmem)
      next => cases hs

/-- The sub-tests of a declared function are found in its body, if there are any. -/
theorem Scope.exists_subtests_of_subtestsOf {n : Node} {u : TestUnit} (h : u.subtests = s.subtestsOf n parent)
    (hne : u.subtests ≠ []) : ∃ body, u.subtests = subtests s body parent [] := by
  rw [Scope.subtestsOf] at h
  split at h
  · exact absurd h hne
  · exact ⟨_, h⟩

/-- The name of a function holds neither a blank nor a slash. -/
theorem Source.notMem_of_functionName? {content : Bytes} {f : Source} (hf : Source.parse? content = some f)
    {settings : Settings} {n : Node} (hn : n ∈ f.functions) {name : String}
    (h : (f.scope settings).functionName? n = some name) : ' ' ∉ name.toList ∧ '/' ∉ name.toList := by
  obtain ⟨name', hname', letters⟩ := Source.exists_functionName? hf settings hn
  obtain rfl : name = name' := Option.some.inj (h.symm.trans hname')
  exact ⟨fun hmem => absurd (letters ' ' hmem) (by decide), fun hmem => absurd (letters '/' hmem) (by decide)⟩

/-- A way down a suite begins with a test function, which has its own name for a machine name. -/
theorem Source.top_of_unitPath {content : Bytes} {f : Source} {settings : Settings} {package name : String}
    {suite : TestSuite} {top : TestUnit} {path : List TestUnit} (hf : Source.parse? content = some f)
    (hs : f.suite? settings package name = some suite) (hpath : UnitPath suite.units (top :: path)) :
    ∃ n ∈ f.functions, (f.scope settings).functionName? n = some top.name ∧ '/' ∉ top.name.toList ∧
      top.machineName = top.name ∧ top.subtests = (f.scope settings).subtestsOf n top.machineName := by
  have htop : top ∈ suite.units := by cases hpath <;> assumption
  rw [Source.units_of_suite? hs] at htop
  obtain ⟨n, hn, htop⟩ := List.mem_filterMap.1 htop
  obtain ⟨hname, hmachine, hsub⟩ := Scope.testFunction?_eq_some htop
  obtain ⟨blank, slash⟩ := Source.notMem_of_functionName? hf hn hname
  have same : top.machineName = top.name := hmachine.trans (machineSegment_eq_self blank)
  exact ⟨n, hn, hname, slash, same, by rw [same, hsub]⟩

/-- The machine names on a way down a suite continue one another. -/
theorem Source.isChain_machineName {content : Bytes} {f : Source} {settings : Settings} {package name : String}
    {suite : TestSuite} {top : TestUnit} {path : List TestUnit} (hf : Source.parse? content = some f)
    (hs : f.suite? settings package name = some suite) (hpath : UnitPath suite.units (top :: path)) :
    (top :: path).IsChain fun above u => u.machineName = childMachineName above.machineName u.name := by
  obtain ⟨n, -, -, -, -, hsub⟩ := Source.top_of_unitPath hf hs hpath
  cases hpath with
  | single => exact .singleton top
  | down _ rest =>
      obtain ⟨body, hbody⟩ := Scope.exists_subtests_of_subtestsOf hsub rest.ne_nil.1
      rw [hbody] at rest
      exact rest.isChain_machineName top rfl

/-- The segments of the last machine name on a way down are those of the names on it exactly if no name further
down than the first holds a slash. -/
theorem ancestry_getLast_eq_iff {top : TestUnit}
    (h : (top :: path).IsChain fun above u => u.machineName = childMachineName above.machineName u.name)
    (htop : '/' ∉ top.machineName.toList) :
    ((top :: path).getLast (List.cons_ne_nil _ _)).ancestry =
        top.machineName :: path.map (fun v => machineSegment v.name) ↔
      ∀ v ∈ path, '/' ∉ v.name.toList := by
  have segments : top.machineName :: path.map (fun v => machineSegment v.name) =
      (top.machineName.toList :: path.map fun v => (machineSegment v.name).toList).map String.ofList := by
    simp
  rw [TestUnit.ancestry, segments, (List.map_injective_iff.2 fun _ _ => String.ofList_injective).eq_iff,
    machineSeparator, splitOn_machineName_getLast h, splitOn_eq_singleton htop, List.singleton_append,
    List.cons_inj_right, ← List.flatMap_map (fun v : TestUnit => (machineSegment v.name).toList) (splitOn '/'),
    flatMap_splitOn_eq_self_iff, List.forall_mem_map]
  simp only [slash_mem_machineSegment]

/-- **Machine names encode the ancestry.** Take a suite that a source makes up and a way down its units. It begins
with a test function, whose machine name is the name of the function. Further down each unit has the machine name
of the unit above it, a slash, and its own name with low lines in the place of blanks and no other change. The
machine name at the end of the way splits into one segment for each unit on the way exactly if the name of no
sub-test on it holds a slash. -/
theorem machineName_of_unitPath {content : Bytes} {f : Source} {settings : Settings} {package name : String}
    {suite : TestSuite} {path : List TestUnit} {u : TestUnit} (hf : Source.parse? content = some f)
    (hs : f.suite? settings package name = some suite) (hpath : UnitPath suite.units path)
    (hu : path.getLast? = some u) :
    (∀ top ∈ path.head?, ∃ n ∈ f.functions, (f.scope settings).functionName? n = some top.machineName) ∧
      (path.IsChain fun above u =>
        u.machineName.toList =
          above.machineName.toList ++ '/' :: u.name.toList.map fun c => if c = ' ' then '_' else c) ∧
      (u.ancestry = path.map (fun v => machineSegment v.name) ↔ ∀ v ∈ path.tail, '/' ∉ v.name.toList) := by
  cases path with
  | nil => cases hpath
  | cons top path =>
      obtain ⟨n, hn, hname, slash, same, -⟩ := Source.top_of_unitPath hf hs hpath
      have chain := Source.isChain_machineName hf hs hpath
      obtain ⟨blank, -⟩ := Source.notMem_of_functionName? hf hn hname
      obtain rfl : (top :: path).getLast (List.cons_ne_nil _ _) = u :=
        Option.some.inj ((List.getLast?_eq_some_getLast _).symm.trans hu)
      refine ⟨?_, chain.imp ?_, ?_⟩
      · intro first hfirst
        obtain rfl : top = first := Option.some.inj hfirst
        exact ⟨n, hn, by rw [same, hname]⟩
      · intro above u h
        rw [h, toList_childMachineName, toList_machineSegment]
      · rw [List.map_cons, machineSegment_eq_self blank, ← same, List.tail_cons]
        exact ancestry_getLast_eq_iff chain (by rwa [same])

/-- A sub-test whose name has a blank and no slash. -/
theorem machineName_of_unitPath_loopFile :
    ∃ f suite top u, Source.parse? (Bytes.ofString (loopFile "`case ` + v")) = some f ∧
      f.suite? {} "p" "x_test.go" = some suite ∧ UnitPath suite.units [top, u] ∧ top.name = "TestX" ∧
      u.name = "case b" ∧ (∃ n ∈ f.functions, (f.scope {}).functionName? n = some top.machineName) ∧
      u.machineName.toList = top.machineName.toList ++ '/' :: "case_b".toList ∧
      u.ancestry = ["TestX", "case_b"] := by
  have forms : Source.nameForms? (loopFile "`case ` + v") =
      some [([⟨"v", ["a", "b"]⟩], some (.sum (.text "case ") (.var "v")))] := by
    decide +kernel
  have functions : (Source.parse? (Bytes.ofString (loopFile "`case ` + v"))).map
      (fun f => f.functions.map (f.scope {}).functionName?) = some [some "TestX"] := by
    decide +kernel
  obtain ⟨f, function, body, u, -, hf, hfunction, hbody, found, hunit, -⟩ :=
    Source.exists_unit_of_nameForms? forms (by decide : "case b" ∈ _)
  rw [hf, Option.map_some, Option.some_inj, List.map_eq_singleton_iff] at functions
  obtain ⟨_, hall, hname⟩ := functions
  rw [hall, List.mem_singleton] at hfunction
  subst hfunction
  have hfunction : function ∈ f.functions := by simp [hall]
  have htop : (f.scope {}).testFunction? ({} : Settings).testPrefix function = some (TestUnit.root "TestX"
      ((f.scope {}).comment function) (subtests (f.scope {}) body "TestX" [])) := by
    simp only [Scope.testFunction?, hname, Scope.subtestsOf, hbody]
    rfl
  obtain ⟨suite, hs, hmem⟩ := Source.exists_suite? hfunction htop "p" "x_test.go"
  have path : UnitPath suite.units [_, u] := .down hmem (.single found)
  obtain ⟨first, chain, ancestry⟩ := machineName_of_unitPath (u := u) hf hs path rfl
  have hseg : machineSegment u.name = "case_b" := by rw [hunit]; decide
  refine ⟨f, suite, _, u, hf, hs, path, rfl, hunit, first _ rfl, ?_, ?_⟩
  · rw [List.isChain_pair.1 chain, ← toList_machineSegment, hseg]
  · rw [ancestry.2 (by simp [hunit]), List.map_cons, List.map_singleton, hseg]
    exact congrArg (fun name => [name, "case_b"]) (by decide : machineSegment "TestX" = "TestX")

end Go

end SuiteReport
