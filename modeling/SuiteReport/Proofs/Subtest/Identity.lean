import SuiteReport.Proofs.Report.Keys
import SuiteReport.Proofs.Report.Table
import SuiteReport.Proofs.Subtest.MachineName
import SuiteReport.Proofs.Text.Trim
/-!
# Which units have an identity of their own

A unit is known to test runners by its machine name, and its result is looked for under the machine name without
white space at its ends. Nothing numbers units that would get the same name, so two units of a suite can share one:
siblings whose names are equal once blanks have become low lines, functions declared twice, and units whose names
hold slashes. This module says exactly when that happens. Since a unit can occur twice in a suite, it is told by its
place, in the order in which the units are listed.

## Main definitions

* `address`: what two functions make of the names above a unit and of its own name.
* `segments`: the segments that the names on the way to a unit add up to.

## Main results

* `nodup_address_placesAll`: the addresses of units are distinct exactly if those of siblings are.
* `splitOn_machineName`, `splitOn_trim_machineName`: the segments of machine names, and of machine names in keys.
* `machineName_eq_iff`: when machine names are equal, and when all of a suite are distinct.
-/

namespace SuiteReport

open Markdown (places placesAll places_eq placesAll_eq_flatMap map_snd_placesAll name_of_mem_placesAll)

/-! ### Places -/

/-- A tree has its place below the given names. -/
theorem self_mem_places (above : List String) (u : TestUnit) : (above, u) ∈ places above u := by
  rw [places_eq]
  exact List.mem_cons_self

/-- Each of several units has its place below the same names. -/
theorem mem_placesAll_of_mem {above : List String} {us : List TestUnit} {u : TestUnit} (h : u ∈ us) :
    (above, u) ∈ placesAll above us := by
  rw [placesAll_eq_flatMap]
  exact List.mem_flatMap_of_mem h (self_mem_places above u)

/-- A place in several trees is a place in one of them. -/
theorem exists_of_mem_placesAll {above : List String} {us : List TestUnit} {p : List String × TestUnit}
    (h : p ∈ placesAll above us) : ∃ u ∈ us, p ∈ places above u := by
  rw [placesAll_eq_flatMap] at h
  exact List.mem_flatMap.1 h

mutual

/-- The names above a tree are above everything in it. -/
theorem prefix_of_mem_places {above : List String} {p : List String × TestUnit} :
    ∀ {u : TestUnit}, p ∈ places above u → above <+: p.1
  | ⟨name, machineName, comment, subtests⟩, h => by
      rw [places, List.mem_cons] at h
      rcases h with rfl | h
      · exact List.prefix_rfl
      · exact (List.prefix_append above [name]).trans (prefix_of_mem_placesAll h)

/-- The names above several trees are above everything in them. -/
theorem prefix_of_mem_placesAll {above : List String} {p : List String × TestUnit} :
    ∀ {us : List TestUnit}, p ∈ placesAll above us → above <+: p.1
  | u :: us, h => by
      rw [placesAll, List.mem_append] at h
      rcases h with h | h
      · exact prefix_of_mem_places h
      · exact prefix_of_mem_placesAll h

end

/-- The way to anything in a tree begins with the way to its root. -/
theorem concat_prefix_of_mem_places {above : List String} {u : TestUnit} {p : List String × TestUnit}
    (h : p ∈ places above u) : above ++ [u.name] <+: p.1 ++ [p.2.name] := by
  rw [places_eq, List.mem_cons] at h
  rcases h with rfl | h
  · exact List.prefix_rfl
  · exact (prefix_of_mem_placesAll h).trans (List.prefix_append p.1 [p.2.name])

/-! ### Addresses -/

section Addresses

variable {α β : Type} {f : String → α} {g : String → β}

/-- The address of a place: what `f` makes of the names above the unit, and what `g` makes of its own. -/
def address (f : String → α) (g : String → β) (p : List String × TestUnit) : List α × β :=
  (p.1.map f, g p.2.name)

/-- An address can be written as one list if both functions give values of one kind. -/
theorem address_eq_iff {f g : String → α} {p q : List String × TestUnit} :
    address f g p = address f g q ↔ p.1.map f ++ [g p.2.name] = q.1.map f ++ [g q.2.name] := by
  rw [address, address, Prod.mk.injEq]
  exact ⟨fun ⟨habove, hname⟩ => by rw [habove, hname], fun h => by simpa using List.append_inj' h rfl⟩

/-- What `f` makes of some names tells what `g` makes of them, if it does so for each. -/
theorem map_eq_map_of_determines (hfg : ∀ a b, f a = f b → g a = g b) {names others : List String}
    (h : names.map f = others.map f) : names.map g = others.map g := by
  induction names generalizing others with
  | nil =>
      obtain rfl := List.map_eq_nil_iff.1 h.symm
      rfl
  | cons a names ih =>
      cases others with
      | nil => cases h
      | cons b others =>
          obtain ⟨hab, hrest⟩ := List.cons.inj h
          rw [List.map_cons, List.map_cons, hfg a b hab, ih hrest]

/-- Trees side by side that hold places with equal addresses have equal names at their roots, as far as `g` tells. -/
theorem name_eq_of_address_eq (hfg : ∀ a b, f a = f b → g a = g b) {above : List String} {u v : TestUnit}
    {p q : List String × TestUnit} (hp : p ∈ places above u) (hq : q ∈ places above v)
    (h : address f g p = address f g q) : g u.name = g v.name := by
  obtain ⟨habove, hname⟩ := Prod.mk.inj h
  have whole : (p.1 ++ [p.2.name]).map g = (q.1 ++ [q.2.name]).map g := by
    rw [List.map_append, List.map_append, map_eq_map_of_determines hfg habove, List.map_singleton,
      List.map_singleton, hname]
  have hu := (concat_prefix_of_mem_places hp).map g
  have hv := (concat_prefix_of_mem_places hq).map g
  rw [whole] at hu
  have same := (List.prefix_of_prefix_length_le hu hv (by simp)).eq_of_length (by simp)
  simpa using same

/-- Nothing below a unit has the address of the unit. -/
theorem address_notMem_placesAll (above : List String) (u : TestUnit) (us : List TestUnit) :
    address f g (above, u) ∉ (placesAll (above ++ [u.name]) us).map (address f g) := by
  intro h
  obtain ⟨p, hp, haddress⟩ := List.mem_map.1 h
  have longer := (prefix_of_mem_placesAll hp).length_le
  have equal := congrArg List.length (Prod.mk.inj haddress).1
  simp only [List.length_map, List.length_append, List.length_singleton] at longer equal
  omega

mutual

/-- The addresses in a tree are distinct exactly if siblings have distinct names as far as `g` tells. -/
theorem nodup_address_places (hfg : ∀ a b, f a = f b → g a = g b) (above : List String) : ∀ u : TestUnit,
    ((places above u).map (address f g)).Nodup ↔ ∀ v ∈ u.preorder, (v.subtests.map (g ·.name)).Nodup
  | ⟨name, machineName, comment, subtests⟩ => by
      rw [places, TestUnit.preorder, List.map_cons, List.nodup_cons, List.forall_mem_cons,
        nodup_address_placesAll hfg (above ++ [name]) subtests]
      exact and_iff_right (address_notMem_placesAll above ⟨name, machineName, comment, subtests⟩ subtests)

/-- **The addresses of units are distinct** exactly if siblings have distinct names as far as `g` tells, those at
the top and those below each unit. -/
theorem nodup_address_placesAll (hfg : ∀ a b, f a = f b → g a = g b) (above : List String) : ∀ us : List TestUnit,
    ((placesAll above us).map (address f g)).Nodup ↔
      (us.map (g ·.name)).Nodup ∧ ∀ v ∈ TestUnit.preorderAll us, (v.subtests.map (g ·.name)).Nodup
  | [] => by simp [placesAll, TestUnit.preorderAll]
  | u :: us => by
      -- the first tree shares an address with the others exactly if its root does
      have apart : (∀ a ∈ (places above u).map (address f g), ∀ b ∈ (placesAll above us).map (address f g), a ≠ b) ↔
          g u.name ∉ us.map (g ·.name) := by
        constructor
        · intro h hmem
          obtain ⟨v, hv, hname⟩ := List.mem_map.1 hmem
          have hu := List.mem_map_of_mem (f := address f g) (self_mem_places above u)
          refine h _ hu _ (List.mem_map_of_mem (mem_placesAll_of_mem hv)) ?_
          rw [address, address, hname]
        · intro h a ha b hb hab
          obtain ⟨p, hp, rfl⟩ := List.mem_map.1 ha
          obtain ⟨q, hq, rfl⟩ := List.mem_map.1 hb
          obtain ⟨v, hv, hq⟩ := exists_of_mem_placesAll hq
          exact h (List.mem_map.2 ⟨v, hv, (name_eq_of_address_eq hfg hp hq hab).symm⟩)
      rw [placesAll, TestUnit.preorderAll, List.map_append, List.nodup_append, List.map_cons, List.nodup_cons,
        List.forall_mem_append, apart, nodup_address_places hfg above u, nodup_address_placesAll hfg above us]
      tauto

end

end Addresses

/-! ### Segments -/

/-- The segments that the names on the way to a unit add up to: each name with low lines in the place of blanks, cut
at slashes. -/
def segments (names : List String) : List (List Char) :=
  names.flatMap fun name => splitOn '/' (machineSegment name).toList

/-- The segment of a name without the white space at its end. -/
def trimmedSegment (name : String) : String := String.ofList (trimEnd Blank.isBlank (machineSegment name).toList)

theorem segments_append (names later : List String) : segments (names ++ later) = segments names ++ segments later :=
  List.flatMap_append

/-- Names without slashes have one segment each. -/
theorem segments_eq_map {names : List String} (h : ∀ name ∈ names, '/' ∉ name.toList) :
    segments names = (names.map machineSegment).map String.toList := by
  rw [segments, ← List.flatMap_map (fun name => (machineSegment name).toList) (splitOn '/'), List.map_map]
  refine flatMap_splitOn_eq_self_iff.2 ?_
  rw [List.forall_mem_map]
  exact fun name hname hslash => h name hname (slash_mem_machineSegment.1 hslash)

/-- Without a slash in its name, nothing is cut off the segment of a unit. -/
theorem slash_notMem_trimmedSegment {name : String} (h : '/' ∉ name.toList) : '/' ∉ (trimmedSegment name).toList := by
  rw [trimmedSegment, String.toList_ofList, trimEnd, List.mem_reverse]
  intro hmem
  have := (List.dropWhile_suffix _).mem hmem
  exact h (slash_mem_machineSegment.1 (List.mem_reverse.1 this))

theorem map_toList_injective : Function.Injective (List.map String.toList) :=
  List.map_injective_iff.2 fun _ _ => String.toList_injective

/-- Lists that differ in nothing but how their members are told apart have the same repetitions. -/
theorem nodup_map_iff_of_eq_iff {α β γ : Type} {l : List α} {f : α → β} {g : α → γ}
    (h : ∀ a ∈ l, ∀ b ∈ l, f a = f b ↔ g a = g b) : (l.map f).Nodup ↔ (l.map g).Nodup := by
  rw [List.Nodup, List.Nodup, List.pairwise_map, List.pairwise_map]
  exact List.Pairwise.iff_of_mem fun ha hb => not_congr (h _ ha _ hb)

/-- The numbers of the characters that are white space. -/
def blankNumbers : List Nat :=
  List.range' 0x09 5 ++ [0x20, 0x85, 0xA0, 0x1680] ++ List.range' 0x2000 11 ++ [0x2028, 0x2029, 0x202F, 0x205F, 0x3000]

/-- No character of an identifier is white space. -/
theorem isBlank_of_isContinuation {c : Char} (h : Identifier.isContinuation c = true) : Blank.isBlank c = false := by
  rw [← Bool.not_eq_true]
  intro hblank
  have number : c.toNat ∈ blankNumbers := by
    simp only [Blank.isBlank, Bool.or_eq_true, Bool.and_eq_true, beq_iff_eq, decide_eq_true_eq] at hblank
    simp only [blankNumbers, List.mem_append, List.mem_range'_1, List.mem_cons, List.not_mem_nil, or_false]
    omega
  have none : ∀ n ∈ blankNumbers, Identifier.isContinuation (Char.ofNat n) = false := by
    decide +kernel
  have := none _ number
  rw [Char.ofNat_toNat, h] at this
  cases this

/-! ### Ways to units -/

/-- A way down some units is one down more units. -/
theorem Go.UnitPath.of_subset {us vs path : List TestUnit} (h : Go.UnitPath us path) (hsub : ∀ u ∈ us, u ∈ vs) :
    Go.UnitPath vs path := by
  cases h with
  | single hu => exact .single (hsub _ hu)
  | down hu rest => exact .down (hsub _ hu) rest

/-- A way down some units begins with one of them. -/
theorem Go.UnitPath.mem_of_cons {us path : List TestUnit} {u : TestUnit} (h : Go.UnitPath us (u :: path)) : u ∈ us := by
  cases h <;> assumption

mutual

/-- A way leads to every place in a tree, through the units whose names are above the place. -/
theorem exists_unitPath_of_mem_places {above : List String} {p : List String × TestUnit} {us : List TestUnit} :
    ∀ {u : TestUnit}, u ∈ us → p ∈ places above u →
      ∃ way, Go.UnitPath us (way ++ [p.2]) ∧ p.1 = above ++ way.map TestUnit.name
  | ⟨name, machineName, comment, subtests⟩, hu, h => by
      rw [places, List.mem_cons] at h
      rcases h with rfl | h
      · exact ⟨[], .single hu, by simp⟩
      · obtain ⟨way, hway, hp⟩ := exists_unitPath_of_mem_placesAll h
        exact ⟨⟨name, machineName, comment, subtests⟩ :: way, .down hu hway, by simp [hp]⟩

/-- A way leads to every place in several trees. -/
theorem exists_unitPath_of_mem_placesAll {above : List String} {p : List String × TestUnit} :
    ∀ {us : List TestUnit}, p ∈ placesAll above us →
      ∃ way, Go.UnitPath us (way ++ [p.2]) ∧ p.1 = above ++ way.map TestUnit.name
  | u :: us, h => by
      rw [placesAll, List.mem_append] at h
      rcases h with h | h
      · exact exists_unitPath_of_mem_places List.mem_cons_self h
      · obtain ⟨way, hway, hp⟩ := exists_unitPath_of_mem_placesAll h
        exact ⟨way, hway.of_subset fun v hv => List.mem_cons_of_mem u hv, hp⟩

end

namespace Go

/-- The machine names on a way down begin with what is no white space if the first one does. -/
theorem isBlank_head_machineName_getLast {top : TestUnit} {path : List TestUnit}
    (h : (top :: path).IsChain fun above u => u.machineName = childMachineName above.machineName u.name)
    (htop : ∀ c ∈ top.machineName.toList.head?, Blank.isBlank c = false) :
    ∀ c ∈ ((top :: path).getLast (List.cons_ne_nil _ _)).machineName.toList.head?, Blank.isBlank c = false := by
  induction path generalizing top with
  | nil => exact htop
  | cons u path ih =>
      obtain ⟨hu, hrest⟩ := List.isChain_cons_cons.1 h
      rw [List.getLast_cons (List.cons_ne_nil _ _)]
      refine ih hrest ?_
      rw [hu, toList_childMachineName]
      exact stays_of_mem_head?_append_cons htop rfl

variable {content : Bytes} {f : Source} {settings : Settings} {package name : String} {suite : TestSuite}

/-- A test function has its own name, an identifier, for a machine name. -/
theorem Source.machineName_of_mem_units (hf : Source.parse? content = some f)
    (hs : f.suite? settings package name = some suite) {u : TestUnit} (hu : u ∈ suite.units) :
    u.machineName = machineSegment u.name ∧ machineSegment u.name = u.name ∧
      ∀ c ∈ u.name.toList, Identifier.isContinuation c = true := by
  obtain ⟨n, hn, hname, -, hmachine, -⟩ := Source.top_of_unitPath hf hs (.single hu)
  obtain ⟨name', hname', letters⟩ := Source.exists_functionName? hf settings hn
  obtain rfl : u.name = name' := Option.some.inj (hname.symm.trans hname')
  have same : machineSegment u.name = u.name :=
    machineSegment_eq_self fun hmem => absurd (letters ' ' hmem) (by decide)
  exact ⟨hmachine.trans same.symm, same, letters⟩

/-- A unit of a suite is a test function, or it continues the machine name of the unit above it, which has the
segments of the names above the unit and does not begin with white space. -/
theorem Source.machineName_of_mem_placesAll (hf : Source.parse? content = some f)
    (hs : f.suite? settings package name = some suite) {p : List String × TestUnit}
    (hp : p ∈ placesAll [] suite.units) :
    (p.1 = [] ∧ p.2 ∈ suite.units) ∨
      ∃ parent, p.2.machineName = childMachineName parent p.2.name ∧ splitOn '/' parent.toList = segments p.1 ∧
        ∀ c ∈ parent.toList.head?, Blank.isBlank c = false := by
  obtain ⟨way, hway, hnames⟩ := exists_unitPath_of_mem_placesAll hp
  rw [List.nil_append] at hnames
  cases way with
  | nil => exact .inl ⟨hnames, hway.mem_of_cons⟩
  | cons top way =>
      have htop : top ∈ suite.units := hway.mem_of_cons
      obtain ⟨hmachine, same, letters⟩ := Source.machineName_of_mem_units hf hs htop
      have chain : ((top :: way) ++ [p.2]).IsChain fun above u =>
          u.machineName = childMachineName above.machineName u.name := Source.isChain_machineName hf hs hway
      obtain ⟨chain, -, last⟩ := List.isChain_append.1 chain
      refine .inr ⟨_, last _ (List.getLast?_eq_some_getLast (List.cons_ne_nil _ _)) _ rfl, ?_, ?_⟩
      · rw [splitOn_machineName_getLast chain, hnames, hmachine, segments, List.map_cons, List.flatMap_cons,
          List.flatMap_map]
      · refine isBlank_head_machineName_getLast chain ?_
        intro c hc
        rw [hmachine, same] at hc
        exact isBlank_of_isContinuation (letters c (List.mem_of_head? hc))

/-- **The segments of a machine name** are those that the names on the way to the unit add up to. -/
theorem Source.splitOn_machineName (hf : Source.parse? content = some f)
    (hs : f.suite? settings package name = some suite) {p : List String × TestUnit}
    (hp : p ∈ placesAll [] suite.units) :
    splitOn '/' p.2.machineName.toList = segments (p.1 ++ [p.2.name]) := by
  rw [segments_append]
  rcases Source.machineName_of_mem_placesAll hf hs hp with ⟨habove, hu⟩ | ⟨parent, hmachine, hparent, -⟩
  · obtain ⟨hmachine, -, -⟩ := Source.machineName_of_mem_units hf hs hu
    rw [habove, hmachine]
    simp [segments]
  · rw [hmachine, toList_childMachineName, splitOn_append_cons, hparent]
    simp [segments]

/-- **The segments of a machine name in a key** are the same, but for the white space at the end of the last name. -/
theorem Source.splitOn_trim_machineName (hf : Source.parse? content = some f)
    (hs : f.suite? settings package name = some suite) {p : List String × TestUnit}
    (hp : p ∈ placesAll [] suite.units) :
    splitOn '/' (Blank.trim p.2.machineName).toList =
      segments p.1 ++ splitOn '/' (trimmedSegment p.2.name).toList := by
  rw [Blank.trim, String.toList_ofList, trimmedSegment, String.toList_ofList]
  rcases Source.machineName_of_mem_placesAll hf hs hp with ⟨habove, hu⟩ | ⟨parent, hmachine, hparent, hhead⟩
  · obtain ⟨hmachine, same, letters⟩ := Source.machineName_of_mem_units hf hs hu
    have blank : ∀ c ∈ p.2.name.toList, Blank.isBlank c = false := fun c hc =>
      isBlank_of_isContinuation (letters c hc)
    rw [habove, hmachine, same, trim_eq_self blank, trimEnd_eq_self fun c hc => blank c (List.mem_of_getLast? hc)]
    rfl
  · have start : trimStart Blank.isBlank (parent.toList ++ '/' :: (machineSegment p.2.name).toList) =
        parent.toList ++ '/' :: (machineSegment p.2.name).toList :=
      trimStart_eq_self (stays_of_mem_head?_append_cons hhead rfl)
    rw [hmachine, toList_childMachineName, trim, start, trimEnd_append_cons rfl, splitOn_append_cons, hparent]

/-! ### Units that share a machine name -/

/-- Two units have the same machine name exactly if the names on the ways to them add up to the same segments. -/
theorem Source.machineName_eq_iff_segments (hf : Source.parse? content = some f)
    (hs : f.suite? settings package name = some suite) {p q : List String × TestUnit}
    (hp : p ∈ placesAll [] suite.units) (hq : q ∈ placesAll [] suite.units) :
    p.2.machineName = q.2.machineName ↔ segments (p.1 ++ [p.2.name]) = segments (q.1 ++ [q.2.name]) := by
  rw [← Source.splitOn_machineName hf hs hp, ← Source.splitOn_machineName hf hs hq,
    (splitOn_injective '/').eq_iff, String.toList_inj]

/-- Keys of one package are told by the machine names without white space at their ends. -/
theorem resultKey_eq_iff {package test test' : String} :
    resultKey package test = resultKey package test' ↔ Blank.trim test = Blank.trim test' := by
  rw [← String.toList_inj, resultKey, resultKey]
  simp only [String.toList_append, List.append_cancel_left_eq, String.toList_inj]

section Slashes

variable {p q : List String × TestUnit}

/-- Without slashes in the names of units, there are none in those above them. -/
theorem slash_notMem_of_mem_above {us : List TestUnit} (hslash : ∀ u ∈ TestUnit.preorderAll us, '/' ∉ u.name.toList)
    (hp : p ∈ placesAll [] us) : ∀ a ∈ p.1 ++ [p.2.name], '/' ∉ a.toList := by
  have hown : p.2 ∈ TestUnit.preorderAll us := by
    rw [← map_snd_placesAll [] us]
    exact List.mem_map_of_mem hp
  intro a ha
  rcases List.mem_append.1 ha with ha | ha
  · rcases name_of_mem_placesAll hp ha with ha | ⟨v, hv, rfl⟩
    · cases ha
    · exact hslash v hv
  · obtain rfl := List.mem_singleton.1 ha
    exact hslash p.2 hown

/-- Without slashes in the names, machine names are told by the segments of the names. -/
theorem Source.machineName_eq_iff_address (hf : Source.parse? content = some f)
    (hs : f.suite? settings package name = some suite)
    (hslash : ∀ u ∈ TestUnit.preorderAll suite.units, '/' ∉ u.name.toList)
    (hp : p ∈ placesAll [] suite.units) (hq : q ∈ placesAll [] suite.units) :
    p.2.machineName = q.2.machineName ↔
      address machineSegment machineSegment p = address machineSegment machineSegment q := by
  rw [Source.machineName_eq_iff_segments hf hs hp hq, segments_eq_map (slash_notMem_of_mem_above hslash hp),
    segments_eq_map (slash_notMem_of_mem_above hslash hq), map_toList_injective.eq_iff, List.map_append,
    List.map_append, address_eq_iff]
  rfl

/-- Without slashes in the names, keys are told by the segments of the names, the last one without the white space at
its end. -/
theorem Source.trim_machineName_eq_iff_address (hf : Source.parse? content = some f)
    (hs : f.suite? settings package name = some suite)
    (hslash : ∀ u ∈ TestUnit.preorderAll suite.units, '/' ∉ u.name.toList)
    (hp : p ∈ placesAll [] suite.units) (hq : q ∈ placesAll [] suite.units) :
    Blank.trim p.2.machineName = Blank.trim q.2.machineName ↔
      address machineSegment trimmedSegment p = address machineSegment trimmedSegment q := by
  have parts {r : List String × TestUnit} (hr : r ∈ placesAll [] suite.units) :
      splitOn '/' (Blank.trim r.2.machineName).toList =
        (r.1.map machineSegment ++ [trimmedSegment r.2.name]).map String.toList := by
    obtain ⟨habove, hname⟩ := List.forall_mem_append.1 (slash_notMem_of_mem_above hslash hr)
    rw [Source.splitOn_trim_machineName hf hs hr, segments_eq_map habove,
      splitOn_eq_singleton (slash_notMem_trimmedSegment (hname _ (List.mem_singleton_self _))), List.map_append,
      List.map_singleton]
  have tell : Blank.trim p.2.machineName = Blank.trim q.2.machineName ↔
      splitOn '/' (Blank.trim p.2.machineName).toList = splitOn '/' (Blank.trim q.2.machineName).toList := by
    rw [(splitOn_injective '/').eq_iff, String.toList_inj]
  rw [tell, parts hp, parts hq, map_toList_injective.eq_iff, address_eq_iff]

end Slashes

/-- **When units have identities of their own.** Take a suite that a source makes up. Two of its units, told by their
places, have the same machine name exactly if the names on the ways to them, with low lines in the place of blanks and
cut at slashes, add up to the same segments. So if no name holds a slash, all machine names are distinct exactly if
no function is declared twice and no two sub-tests of one unit have names that are equal once blanks have become low
lines; and each unit is looked up under a key of its own exactly if these names differ in more than white space at
their ends. -/
theorem Source.machineName_eq_iff (hf : Source.parse? content = some f)
    (hs : f.suite? settings package name = some suite) :
    (∀ p ∈ placesAll [] suite.units, ∀ q ∈ placesAll [] suite.units,
      p.2.machineName = q.2.machineName ↔ segments (p.1 ++ [p.2.name]) = segments (q.1 ++ [q.2.name])) ∧
    ((∀ u ∈ TestUnit.preorderAll suite.units, '/' ∉ u.name.toList) →
      (((TestUnit.preorderAll suite.units).map TestUnit.machineName).Nodup ↔
        (suite.units.map TestUnit.name).Nodup ∧
          ∀ u ∈ TestUnit.preorderAll suite.units, (u.subtests.map (machineSegment ·.name)).Nodup) ∧
      (suite.keys.Nodup ↔
        (suite.units.map TestUnit.name).Nodup ∧
          ∀ u ∈ TestUnit.preorderAll suite.units, (u.subtests.map (trimmedSegment ·.name)).Nodup)) := by
  refine ⟨fun p hp q hq => Source.machineName_eq_iff_segments hf hs hp hq, ?_⟩
  intro hslash
  have top (g : String → String) (hg : ∀ u ∈ suite.units, g u.name = u.name) :
      suite.units.map (g ·.name) = suite.units.map TestUnit.name := List.map_congr_left hg
  have segment : ∀ u ∈ suite.units, machineSegment u.name = u.name := fun u hu =>
    (Source.machineName_of_mem_units hf hs hu).2.1
  have trimmed : ∀ u ∈ suite.units, trimmedSegment u.name = u.name := by
    intro u hu
    obtain ⟨-, same, letters⟩ := Source.machineName_of_mem_units hf hs hu
    rw [trimmedSegment, same, trimEnd_eq_self, String.ofList_toList]
    exact fun c hc => isBlank_of_isContinuation (letters c (List.mem_of_getLast? hc))
  constructor
  · have names : (TestUnit.preorderAll suite.units).map TestUnit.machineName =
        (placesAll [] suite.units).map fun p => p.2.machineName := by
      rw [← map_snd_placesAll [] suite.units, List.map_map]
      rfl
    rw [names, nodup_map_iff_of_eq_iff fun p hp q hq => Source.machineName_eq_iff_address hf hs hslash hp hq,
      nodup_address_placesAll (fun _ _ => id), top machineSegment segment]
  · have keys : suite.keys =
        (placesAll [] suite.units).map fun p => resultKey suite.package p.2.machineName := by
      rw [TestSuite.keys, ← map_snd_placesAll [] suite.units, List.map_map]
      rfl
    have same : ∀ p ∈ placesAll [] suite.units, ∀ q ∈ placesAll [] suite.units,
        resultKey suite.package p.2.machineName = resultKey suite.package q.2.machineName ↔
          address machineSegment trimmedSegment p = address machineSegment trimmedSegment q := by
      intro p hp q hq
      rw [resultKey_eq_iff, Source.trim_machineName_eq_iff_address hf hs hslash hp hq]
    rw [keys, nodup_map_iff_of_eq_iff same, nodup_address_placesAll fun a b h => by rw [trimmedSegment, h]; rfl,
      top trimmedSegment trimmed]

/-! ### A name that is used twice -/

/-- What is known of the suite of a file. -/
theorem Source.exists_suite_of_map_eq {α : Type} {text : String} {view : TestSuite → α} {a : α}
    (h : ((Source.parse? (Bytes.ofString text)).bind (·.suite? {} "p" "x_test.go")).map view = some a) :
    ∃ f suite, Source.parse? (Bytes.ofString text) = some f ∧ f.suite? {} "p" "x_test.go" = some suite ∧
      view suite = a := by
  obtain ⟨suite, hsuite, ha⟩ := Option.map_eq_some_iff.1 h
  obtain ⟨f, hf, hs⟩ := Option.bind_eq_some_iff.1 hsuite
  exact ⟨f, suite, hf, hs, ha⟩

/-- A file with a test function that registers two sub-tests with the given names. -/
def pairFile (first second : String) : String :=
  "func TestX() \x7b t.Run(`" ++ first ++ "`, func() \x7b\x7d); t.Run(`" ++ second ++ "`, func() \x7b\x7d) \x7d"

/-- Names that differ in white space at their ends only: the machine names are distinct, and the keys are not. -/
theorem machineName_eq_iff_pairFile :
    ∃ f suite, Source.parse? (Bytes.ofString (pairFile "a" "a\t")) = some f ∧
      f.suite? {} "p" "x_test.go" = some suite ∧ (∀ u ∈ TestUnit.preorderAll suite.units, '/' ∉ u.name.toList) ∧
      ((TestUnit.preorderAll suite.units).map TestUnit.machineName).Nodup ∧ ¬ suite.keys.Nodup := by
  have known : ((Source.parse? (Bytes.ofString (pairFile "a" "a\t"))).bind (·.suite? {} "p" "x_test.go")).map
      (fun s : TestSuite => (decide (∀ u ∈ TestUnit.preorderAll s.units, '/' ∉ u.name.toList),
        decide ((s.units.map TestUnit.name).Nodup ∧
          ∀ u ∈ TestUnit.preorderAll s.units, (u.subtests.map (machineSegment ·.name)).Nodup),
        decide (∀ u ∈ TestUnit.preorderAll s.units, (u.subtests.map (trimmedSegment ·.name)).Nodup))) =
      some (true, true, false) := by
    decide +kernel
  obtain ⟨f, suite, hf, hs, hview⟩ := Source.exists_suite_of_map_eq known
  simp only [Prod.mk.injEq, decide_eq_true_eq, decide_eq_false_iff_not] at hview
  obtain ⟨hslash, hsegments, htrimmed⟩ := hview
  obtain ⟨hnames, hkeys⟩ := (Source.machineName_eq_iff hf hs).2 hslash
  exact ⟨f, suite, hf, hs, hslash, hnames.2 hsegments, fun h => htrimmed (hkeys.1 h).2⟩

/-- **Two units with one machine name.** A function that registers two sub-tests with the same name gives two units
with the same machine name, and both are looked up under the same key. -/
theorem exists_suite_machineName_twice :
    ∃ f suite, Source.parse? (Bytes.ofString (pairFile "a" "a")) = some f ∧
      f.suite? {} "p" "x_test.go" = some suite ∧
      (TestUnit.preorderAll suite.units).map TestUnit.machineName = ["TestX", "TestX/a", "TestX/a"] ∧
      ¬ ((TestUnit.preorderAll suite.units).map TestUnit.machineName).Nodup ∧ ¬ suite.keys.Nodup := by
  have known : ((Source.parse? (Bytes.ofString (pairFile "a" "a"))).bind (·.suite? {} "p" "x_test.go")).map
      (fun s => ((TestUnit.preorderAll s.units).map TestUnit.machineName, s.keys)) =
      some (["TestX", "TestX/a", "TestX/a"], ["p::TestX", "p::TestX/a", "p::TestX/a"]) := by
    decide +kernel
  obtain ⟨f, suite, hf, hs, hview⟩ := Source.exists_suite_of_map_eq known
  obtain ⟨hnames, hkeys⟩ := Prod.mk.inj hview
  exact ⟨f, suite, hf, hs, hnames, by rw [hnames]; decide, by rw [hkeys]; decide⟩

end Go

end SuiteReport
