import Mathlib.Data.List.Basic
import SuiteReport.Proofs.Text.Split
import SuiteReport.Report.Markdown
/-!
# The lines of a table

A table shows each unit of a suite on a line of five cells, between bars that no backslash precedes. Summaries and
failures are made fit for their cells whatever they hold. The names on the way to a unit and its duration are
written as they are, so a line feed in one of them breaks the line and a bar in one of them that has no backslash
before it adds a cell. This module shows that nothing else can go wrong with a table.

## Main definitions

* `openBars`: the number of bars in a text that no backslash precedes.
* `FitsCell`: whether a text fits into a cell as it is.
* `placesAll`: the units of a table in the order of its rows, each with the names above it.
* `rowText`: a row as the text of its cells.

## Main results

* `toList_rowsAll`: a table has one row for each unit.
* `openBars_rowText`: the bars between the cells of a row, and those inside them.
* `fitsCell_cell`: a text that is made fit for a cell fits.
* `table_fits_iff`: a table has one line of five cells for each unit exactly if the names and durations fit.
-/

namespace SuiteReport.Markdown

/-! ### Bars -/

/-- The number of bars that do not follow a backslash, in a text that stands behind the character `before`. -/
def openBars (before : Char) : List Char → Nat
  | [] => 0
  | c :: rest => (if c = '|' ∧ before ≠ '\\' then 1 else 0) + openBars c rest

/-- In two texts, one after the other, the second stands behind the end of the first. -/
theorem openBars_append (before : Char) (s later : List Char) :
    openBars before (s ++ later) = openBars before s + openBars (s.getLastD before) later := by
  induction s generalizing before with
  | nil => simp [openBars]
  | cons c rest ih =>
      rw [List.cons_append, openBars, openBars, ih, List.getLastD_cons, Nat.add_assoc]

/-- Whether a text fits into a cell as it is: it is on one line and has no bar that would end the cell. In its
cell it stands behind a blank. -/
def FitsCell (text : List Char) : Prop := '\n' ∉ text ∧ openBars ' ' text = 0

instance (text : List Char) : Decidable (FitsCell text) := inferInstanceAs (Decidable (_ ∧ _))

/-- The bars of a text that is made fit for a cell are escaped, wherever it stands. -/
theorem openBars_flatMap_cellChar (before : Char) (s : List Char) : openBars before (s.flatMap cellChar) = 0 := by
  induction s generalizing before with
  | nil => rfl
  | cons c rest ih =>
      rw [List.flatMap_cons, openBars_append, ih, Nat.add_zero, cellChar]
      split
      next => simp [openBars]
      next hbar => split <;> simp [openBars, hbar]

/-- **A text that is made fit for a cell** fits into it. -/
theorem fitsCell_cell (text : String) : FitsCell (cell text).toList := by
  rw [cell, String.toList_ofList]
  refine ⟨?_, openBars_flatMap_cellChar ' ' _⟩
  rw [List.mem_flatMap]
  rintro ⟨c, -, hc⟩
  rw [cellChar] at hc
  split at hc
  next => simp at hc
  next =>
      split at hc
      next => simp at hc
      next hne => exact hne (List.mem_singleton.1 hc).symm

/-! ### Rows -/

/-- A row with the given cells: a bar before each of them and one at the end, with blanks in between. -/
def rowText (cells : List (List Char)) : List Char := '|' :: cells.flatMap fun text => ' ' :: text ++ [' ', '|']

/-- The number of bars in some cells that no backslash precedes. -/
def barsInside : List (List Char) → Nat
  | [] => 0
  | text :: cells => openBars ' ' text + barsInside cells

/-- There are no such bars in some cells exactly if there are none in each. -/
theorem barsInside_eq_zero_iff {cells : List (List Char)} :
    barsInside cells = 0 ↔ ∀ text ∈ cells, openBars ' ' text = 0 := by
  induction cells with
  | nil => simp [barsInside]
  | cons text cells ih => rw [barsInside, Nat.add_eq_zero_iff, ih, List.forall_mem_cons]

/-- Behind any character, each cell of a row adds its own bars and the one at its end. -/
theorem openBars_flatMap_cells (before : Char) (cells : List (List Char)) :
    openBars before (cells.flatMap fun text => ' ' :: text ++ [' ', '|']) = cells.length + barsInside cells := by
  induction cells generalizing before with
  | nil => rfl
  | cons text cells ih =>
      rw [List.flatMap_cons, openBars_append, ih, List.cons_append, openBars, openBars_append, barsInside,
        List.length_cons]
      simp [openBars]
      omega

/-- **The bars of a row** that no backslash precedes are one more than its cells, and those inside the cells. -/
theorem openBars_rowText (cells : List (List Char)) :
    openBars '\n' (rowText cells) = cells.length + 1 + barsInside cells := by
  rw [rowText, openBars, openBars_flatMap_cells, if_pos (by decide)]
  omega

/-- A row is on one line exactly if its cells are. -/
theorem newline_mem_rowText {cells : List (List Char)} :
    '\n' ∈ rowText cells ↔ ∃ text ∈ cells, '\n' ∈ text := by
  simp [rowText]

/-- A row of five cells is one line with six bars that no backslash precedes exactly if the cells fit. -/
theorem rowText_fits_iff {cells : List (List Char)} (h : cells.length = 5) :
    '\n' ∉ rowText cells ∧ openBars '\n' (rowText cells) = 6 ↔ ∀ text ∈ cells, FitsCell text := by
  rw [newline_mem_rowText, openBars_rowText, h, Nat.add_eq_left, barsInside_eq_zero_iff]
  simp only [not_exists, not_and, FitsCell, forall_and]

/-! ### The units of a table -/

mutual

/-- A unit and everything below it, each with the names of the units above it, outermost first. -/
def places (above : List String) : TestUnit → List (List String × TestUnit)
  | ⟨name, machineName, comment, subtests⟩ =>
    (above, ⟨name, machineName, comment, subtests⟩) :: placesAll (above ++ [name]) subtests

/-- The units of several trees, each with the names of the units above it. -/
def placesAll (above : List String) : List TestUnit → List (List String × TestUnit)
  | [] => []
  | u :: us => places above u ++ placesAll above us

end

/-- The names on the way to a unit as its row shows them. -/
def pathText (above : List String) (name : String) : String :=
  String.join (above.map (· ++ pathSeparator)) ++ name

/-- The cells of the row of a unit. -/
def cells (results : Results) (limit : Nat) (package : String) (place : List String × TestUnit) :
    List (List Char) :=
  let record? := results.record? package place.2
  let status := results.status package place.2
  [(pathText place.1 place.2.name).toList, status.icon.toList ++ ' ' :: status.label.toList,
    ((record?.bind Record.duration).getD "-").toList, (cell (CommentText.summary place.2.comment)).toList,
    (cell ((failureText limit record?).getD "")).toList]

mutual

/-- The units of a table are those of the tree, each before those below it. -/
theorem map_snd_places (above : List String) : ∀ u : TestUnit, (places above u).map Prod.snd = u.preorder
  | ⟨name, machineName, comment, subtests⟩ => by
      rw [places, TestUnit.preorder, List.map_cons, map_snd_placesAll (above ++ [name]) subtests]

/-- The units of a table are those of its trees, tree after tree. -/
theorem map_snd_placesAll (above : List String) :
    ∀ us : List TestUnit, (placesAll above us).map Prod.snd = TestUnit.preorderAll us
  | [] => rfl
  | u :: us => by
      rw [placesAll, TestUnit.preorderAll, List.map_append, map_snd_places above u, map_snd_placesAll above us]

end

/-- The place of a tree comes before those below it. -/
theorem places_eq (above : List String) (u : TestUnit) :
    places above u = (above, u) :: placesAll (above ++ [u.name]) u.subtests := by
  cases u
  rw [places]

/-- The places in several trees are those in the one tree after the other. -/
theorem placesAll_eq_flatMap (above : List String) (us : List TestUnit) :
    placesAll above us = us.flatMap (places above) := by
  induction us with
  | nil => rfl
  | cons u us ih => rw [placesAll, ih, List.flatMap_cons]

mutual

/-- A name above a unit is one of those above the tree or the name of a unit in it. -/
theorem name_of_mem_places {above : List String} {place : List String × TestUnit} {name : String} :
    ∀ {u : TestUnit}, place ∈ places above u → name ∈ place.1 →
      name ∈ above ∨ ∃ v ∈ u.preorder, v.name = name
  | ⟨unitName, machineName, comment, subtests⟩, h, hname => by
      rw [places, List.mem_cons] at h
      rcases h with rfl | h
      · exact .inl hname
      · rw [TestUnit.preorder]
        rcases name_of_mem_placesAll h hname with habove | ⟨v, hv, hvname⟩
        · rcases List.mem_append.1 habove with habove | hself
          · exact .inl habove
          · exact .inr ⟨_, List.mem_cons_self, (List.mem_singleton.1 hself).symm⟩
        · exact .inr ⟨v, List.mem_cons_of_mem _ hv, hvname⟩

/-- A name above a unit is one of those above the trees or the name of a unit in them. -/
theorem name_of_mem_placesAll {above : List String} {place : List String × TestUnit} {name : String} :
    ∀ {us : List TestUnit}, place ∈ placesAll above us → name ∈ place.1 →
      name ∈ above ∨ ∃ v ∈ TestUnit.preorderAll us, v.name = name
  | u :: us, h, hname => by
      rw [TestUnit.preorderAll]
      rw [placesAll, List.mem_append] at h
      rcases h with h | h
      · rcases name_of_mem_places h hname with habove | ⟨v, hv, hvname⟩
        · exact .inl habove
        · exact .inr ⟨v, List.mem_append_left _ hv, hvname⟩
      · rcases name_of_mem_placesAll h hname with habove | ⟨v, hv, hvname⟩
        · exact .inl habove
        · exact .inr ⟨v, List.mem_append_right _ hv, hvname⟩

end

mutual

/-- A tree has as many units as are counted in it. -/
theorem length_preorder : ∀ u : TestUnit, u.preorder.length = u.count
  | ⟨name, machineName, comment, subtests⟩ => by
      rw [TestUnit.preorder, TestUnit.count, List.length_cons, length_preorderAll subtests]

/-- Several trees have as many units as are counted in them. -/
theorem length_preorderAll : ∀ us : List TestUnit, (TestUnit.preorderAll us).length = TestUnit.countAll us
  | [] => rfl
  | u :: us => by
      rw [TestUnit.preorderAll, TestUnit.countAll, List.length_append, length_preorder u, length_preorderAll us]

end

/-! ### The rows of a table -/

section Rows

variable {results : Results} {limit : Nat} {package : String}

/-- The names on the way to a unit further down begin with those on the way to the unit above it. -/
theorem pathText_append (above : List String) (name inner : String) :
    pathText (above ++ [name]) inner = pathText above name ++ pathSeparator ++ inner := by
  simp [pathText, String.append_assoc]

/-- A row is the text of its cells and a line feed. -/
theorem toList_row (path : String) (status : Status) (duration : Option String) (summary failure : String) :
    (row path status duration summary failure).toList =
      rowText [path.toList, status.icon.toList ++ ' ' :: status.label.toList, (duration.getD "-").toList,
        summary.toList, failure.toList] ++ ['\n'] := by
  -- the equation that `simp` would derive for `row` takes long to check
  delta row
  simp [rowText]

mutual

/-- The rows of a unit are those of everything in its tree. -/
theorem toList_rows (above : List String) : ∀ u : TestUnit,
    (rows results limit package (pathText above) u).toList =
      (places above u).flatMap fun place => rowText (cells results limit package place) ++ ['\n']
  | ⟨name, machineName, comment, subtests⟩ => by
      have path : (fun inner => pathText above name ++ pathSeparator ++ inner) = pathText (above ++ [name]) :=
        funext fun inner => (pathText_append above name inner).symm
      rw [rows, places, List.flatMap_cons, String.toList_append, toList_row, path,
        toList_rowsAll (above ++ [name]) subtests]
      rfl

/-- **A table has one row for each unit** of its trees, in order. -/
theorem toList_rowsAll (above : List String) : ∀ us : List TestUnit,
    (rowsAll results limit package (pathText above) us).toList =
      (placesAll above us).flatMap fun place => rowText (cells results limit package place) ++ ['\n']
  | [] => rfl
  | u :: us => by
      rw [rowsAll, placesAll, List.flatMap_append, String.toList_append, toList_rows above u,
        toList_rowsAll above us]

end

/-- Two texts with the separator of paths between them fit into one cell exactly if both fit. -/
theorem fitsCell_append_separator (s later : List Char) :
    FitsCell (s ++ pathSeparator.toList ++ later) ↔ FitsCell s ∧ FitsCell later := by
  have bars : openBars ' ' (s ++ pathSeparator.toList ++ later) = openBars ' ' s + openBars ' ' later := by
    rw [List.append_assoc, openBars_append, openBars_append]
    simp [pathSeparator, openBars]
  have lineFeed : '\n' ∈ s ++ pathSeparator.toList ++ later ↔ '\n' ∈ s ∨ '\n' ∈ later := by
    simp [pathSeparator]
  rw [FitsCell, bars, lineFeed, not_or, Nat.add_eq_zero_iff, and_and_and_comm, FitsCell, FitsCell]

/-- The names on the way to a unit fit into one cell exactly if each of them fits. -/
theorem fitsCell_pathText {above : List String} {name : String} :
    FitsCell (pathText above name).toList ↔ (∀ a ∈ above, FitsCell a.toList) ∧ FitsCell name.toList := by
  induction above with
  | nil => simp [pathText]
  | cons a above ih =>
      have path : (pathText (a :: above) name).toList =
          a.toList ++ pathSeparator.toList ++ (pathText above name).toList := by
        simp [pathText]
      rw [path, fitsCell_append_separator, ih, List.forall_mem_cons, and_assoc]

/-- The sign and the words for a status fit into a cell. -/
theorem fitsCell_status (status : Status) :
    FitsCell (status.icon.toList ++ ' ' :: status.label.toList) := by
  cases status <;> decide

/-- The cells of a row fit exactly if the names on the way to the unit and its duration do. -/
theorem cells_fit_iff (place : List String × TestUnit) :
    (∀ text ∈ cells results limit package place, FitsCell text) ↔
      ((∀ a ∈ place.1, FitsCell a.toList) ∧ FitsCell place.2.name.toList) ∧
        ∀ d ∈ (results.record? package place.2).bind Record.duration, FitsCell d.toList := by
  have duration : FitsCell (((results.record? package place.2).bind Record.duration).getD "-").toList ↔
      ∀ d ∈ (results.record? package place.2).bind Record.duration, FitsCell d.toList := by
    cases (results.record? package place.2).bind Record.duration with
    | none => simpa using (by decide : FitsCell ['-'])
    | some d => simp
  simp [cells, fitsCell_pathText, duration, fitsCell_status, fitsCell_cell]

/-- The cells of all rows fit exactly if the names and durations of all units do: the names above a unit are
names of units. -/
theorem placesAll_fit_iff {us : List TestUnit} :
    (∀ place ∈ placesAll [] us, ∀ text ∈ cells results limit package place, FitsCell text) ↔
      ∀ u ∈ TestUnit.preorderAll us, FitsCell u.name.toList ∧
        ∀ d ∈ (results.record? package u).bind Record.duration, FitsCell d.toList := by
  simp only [cells_fit_iff]
  rw [← map_snd_placesAll [] us, List.forall_mem_map]
  constructor
  · intro h place hplace
    exact ⟨(h place hplace).1.2, (h place hplace).2⟩
  · intro h place hplace
    refine ⟨⟨?_, (h place hplace).1⟩, (h place hplace).2⟩
    intro a ha
    rcases name_of_mem_placesAll hplace ha with habove | ⟨u, hu, rfl⟩
    · cases habove
    · rw [← map_snd_placesAll [] us] at hu
      obtain ⟨place', hplace', rfl⟩ := List.mem_map.1 hu
      exact (h place' hplace').1

end Rows

/-! ### The lines of a table -/

/-- The text of a table below its head, up to the empty line that ends it. -/
def table (results : Results) (limit : Nat) (s : TestSuite) : String := rowsAll results limit s.package id s.units

/-- The section of a suite has its table between the head of the table and an empty line. -/
theorem suiteSection_eq (results : Results) (limit : Nat) (s : TestSuite) :
    suiteSection results limit s =
      "## Test Suite: " ++ s.name ++ "\n\n" ++ description s ++ tableHead ++ table results limit s ++ "\n" :=
  rfl

/-- The lines of a text that ends with a line feed, without what ends them. -/
def endedLines (text : String) : List (List Char) := (splitOn '\n' text.toList).dropLast

/-- A table is made of the rows of the units of its suite, each ended by a line feed. -/
theorem toList_table (results : Results) (limit : Nat) (s : TestSuite) :
    (table results limit s).toList =
      ((placesAll [] s.units).map fun place => rowText (cells results limit s.package place)).flatMap
        (· ++ ['\n']) := by
  have top : id = pathText [] := funext fun name => by simp [pathText]
  rw [table, top, toList_rowsAll, List.flatMap_map]

/-- The lines of a table are those of its rows. -/
theorem endedLines_table (results : Results) (limit : Nat) (s : TestSuite) :
    endedLines (table results limit s) =
      ((placesAll [] s.units).map fun place => rowText (cells results limit s.package place)).flatMap
        (splitOn '\n') := by
  rw [endedLines, toList_table, splitOn_flatMap_ended, List.dropLast_concat]

/-- **When a table is as it should be.** A table has exactly one line for each unit of its suite, and each of them
six bars that no backslash precedes, if and only if the names of all units and all durations that it shows fit into
a cell as they are: without line feeds, and without bars that no backslash precedes. The comments and failures do
not matter. -/
theorem table_fits_iff (results : Results) (limit : Nat) (s : TestSuite) :
    ((endedLines (table results limit s)).length = s.count ∧
        ∀ line ∈ endedLines (table results limit s), openBars '\n' line = 6) ↔
      ∀ u ∈ TestUnit.preorderAll s.units, FitsCell u.name.toList ∧
        ∀ d ∈ (results.record? s.package u).bind Record.duration, FitsCell d.toList := by
  set texts := (placesAll [] s.units).map fun place => rowText (cells results limit s.package place) with htexts
  have count : s.count = texts.length := by
    rw [htexts, List.length_map, TestSuite.count, ← length_preorderAll, ← map_snd_placesAll [], List.length_map]
  have rowsFit : (∀ text ∈ texts, '\n' ∉ text ∧ openBars '\n' text = 6) ↔
      ∀ place ∈ placesAll [] s.units, ∀ text ∈ cells results limit s.package place, FitsCell text := by
    rw [htexts, List.forall_mem_map]
    exact forall₂_congr fun place _ => rowText_fits_iff rfl
  rw [endedLines_table, ← htexts, count, length_flatMap_splitOn_eq_iff, ← placesAll_fit_iff, ← rowsFit,
    forall₂_and]
  refine and_congr_right ?_
  intro single
  rw [flatMap_splitOn_eq_self_iff.2 single]

/-- **A bar that ends a cell.** The name of a sub-test with a bar in it gives its line a cell too many. -/
theorem exists_line_with_sevenBars :
    ∃ s : TestSuite, s.units.map TestUnit.name = ["TestX"] ∧
      endedLines (table .empty 300 s) =
        ["| TestX | ⚪ NOT RUN | - |  |  |".toList, "| TestX → a|b | ⚪ NOT RUN | - |  |  |".toList] ∧
      ∃ line ∈ endedLines (table .empty 300 s), openBars '\n' line = 7 := by
  refine ⟨⟨"p", "x_test.go", none, [.root "TestX" "" [.child "TestX" "a|b" "" []]]⟩, rfl, ?_, ?_⟩
  · decide +kernel
  · decide +kernel

end SuiteReport.Markdown
