import SuiteReport.Proofs.Report.Table
import SuiteReport.Report.Response
/-!
# Tables and responses say the same

A report is written in two ways: as tables, whose rows are made while the tree of a suite is walked, and as a
response, for which the tree is first turned into a tree of entries. Both look up results and shorten failures by
themselves. This module proves that the tables can be read off the response: the table of a suite has the rows of the
entries of the suite in pre-order, and the entries are the units of the suite with what the report adds to them.

## Main definitions

* `UnitEntry.placesAll`: the entries of a suite in pre-order, each with the names above it.
* `UnitEntry.unitsOf`: the units that some entries are about.
* `Markdown.entryRow`: the row that an entry stands for.

## Main results

* `unitsOf_ofUnits`: no unit is missing, repeated or out of place among the entries.
* `report_eq_entryRows`: both ways of writing a report agree.
-/

namespace SuiteReport

variable {results : Results} {limit : Nat} {package : String}

namespace UnitEntry

/-! ### The entries of a report -/

mutual

/-- An entry and everything below it, each with the names of the entries above it, outermost first. -/
def places (above : List String) : UnitEntry → List (List String × UnitEntry)
  | ⟨name, machineName, comment, summary, status, duration, failure, subtests⟩ =>
    (above, ⟨name, machineName, comment, summary, status, duration, failure, subtests⟩) ::
      placesAll (above ++ [name]) subtests

/-- The entries of several trees, each with the names of the entries above it. -/
def placesAll (above : List String) : List UnitEntry → List (List String × UnitEntry)
  | [] => []
  | e :: es => places above e ++ placesAll above es

end

mutual

/-- The unit that an entry is about. -/
def unit : UnitEntry → TestUnit
  | ⟨name, machineName, comment, _, _, _, _, subtests⟩ => ⟨name, machineName, comment, unitsOf subtests⟩

/-- The units that several entries are about. -/
def unitsOf : List UnitEntry → List TestUnit
  | [] => []
  | e :: es => e.unit :: unitsOf es

end

mutual

/-- The entry of a unit is about this unit. -/
theorem unit_ofUnit : ∀ u : TestUnit, (ofUnit results limit package u).unit = u
  | ⟨name, machineName, comment, subtests⟩ => by
      rw [ofUnit, unit, unitsOf_ofUnits subtests]

/-- **No unit is missing, repeated or out of place** among the entries of a suite. -/
theorem unitsOf_ofUnits : ∀ us : List TestUnit, unitsOf (ofUnits results limit package us) = us
  | [] => rfl
  | u :: us => by
      rw [ofUnits, unitsOf, unit_ofUnit u, unitsOf_ofUnits us]

end

mutual

/-- The entries of a unit and of what is below it stand where the units stand. -/
theorem places_ofUnit (above : List String) : ∀ u : TestUnit,
    places above (ofUnit results limit package u) =
      (Markdown.places above u).map fun place => (place.1, ofUnit results limit package place.2)
  | ⟨name, machineName, comment, subtests⟩ => by
      rw [ofUnit, places, Markdown.places, List.map_cons, ofUnit, placesAll_ofUnits (above ++ [name]) subtests]

/-- The entries of several units and of what is below them stand where the units stand. -/
theorem placesAll_ofUnits (above : List String) : ∀ us : List TestUnit,
    placesAll above (ofUnits results limit package us) =
      (Markdown.placesAll above us).map fun place => (place.1, ofUnit results limit package place.2)
  | [] => rfl
  | u :: us => by
      rw [ofUnits, placesAll, Markdown.placesAll, List.map_append, places_ofUnit above u,
        placesAll_ofUnits above us]

end

end UnitEntry

namespace Markdown

/-! ### The rows of entries -/

/-- The row that an entry stands for: the names on the way to it, the sign and the words for its status, its time or
a hyphen, and its summary and its failure made fit for their cells. -/
def entryRow (place : List String × UnitEntry) : String :=
  "| " ++ " | ".intercalate
    [pathSeparator.intercalate (place.1 ++ [place.2.name]),
      place.2.status.icon ++ " " ++ place.2.status.label,
      place.2.duration.getD "-",
      cell place.2.summary,
      cell (place.2.failure.getD "")] ++ " |\n"

/-- The names on the way to a unit are those above it and its own with separators between them. -/
theorem pathText_eq_intercalate (above : List String) (name : String) :
    pathText above name = pathSeparator.intercalate (above ++ [name]) := by
  induction above with
  | nil => simp [pathText]
  | cons a above ih =>
      rw [List.cons_append, String.intercalate_cons_of_ne_nil (by simp), ← ih]
      simp [pathText, String.append_assoc]

/-- What an entry leaves out of a failure is what its cell does not show: an empty text. -/
theorem getD_filter_ne_empty (failure : Option String) :
    (failure.filter (· != "")).getD "" = failure.getD "" := by
  cases failure with
  | none => rfl
  | some text => by_cases h : text = "" <;> simp [Option.filter, h]

/-- The entry of a unit stands for the row that the unit has. -/
theorem toList_entryRow_ofUnit (place : List String × TestUnit) :
    (entryRow (place.1, UnitEntry.ofUnit results limit package place.2)).toList =
      rowText (cells results limit package place) ++ ['\n'] := by
  obtain ⟨above, name, machineName, comment, subtests⟩ := place
  rw [entryRow, UnitEntry.ofUnit, cells, pathText_eq_intercalate]
  simp only [getD_filter_ne_empty]
  simp [rowText, Results.record?, Results.status]

/-- **The rows of a table** are those of the entries of its suite in pre-order. -/
theorem table_eq_join_entryRow (s : TestSuite) :
    table results limit s =
      String.join ((UnitEntry.placesAll [] (SuiteEntry.ofSuite results limit s).units).map entryRow) := by
  rw [← String.toList_inj, toList_table, SuiteEntry.ofSuite, UnitEntry.placesAll_ofUnits, String.toList_join,
    List.flatMap_map, List.flatMap_map, List.flatMap_map]
  exact List.flatMap_congr fun place _ => (toList_entryRow_ofUnit place).symm

/-- **Both ways of writing a report agree.** The response on some suites holds their entries, suite by suite. The
tables are written for the same suites in the same order, and the rows of each are those of its entries in pre-order,
with nothing else between the head of the table and the empty line behind it. The entries of each suite are its units
with what the report adds, so no unit is missing, repeated or out of place on either side. -/
theorem report_eq_entryRows (suites : List TestSuite) (results : Results) (limit : Nat) :
    Response.report suites results limit =
        Response.withStatus "ok"
          [("suites", .array ((suites.map (SuiteEntry.ofSuite results limit)).map Response.ofSuiteEntry))] ∧
      report suites results limit =
        "# Test Documentation Report\n\n" ++ String.join (suites.map fun s =>
          "## Test Suite: " ++ s.name ++ "\n\n" ++ description s ++ tableHead ++
            String.join ((UnitEntry.placesAll [] (SuiteEntry.ofSuite results limit s).units).map entryRow) ++ "\n") ∧
      ∀ s : TestSuite, UnitEntry.unitsOf (SuiteEntry.ofSuite results limit s).units = s.units ∧
        (UnitEntry.placesAll [] (SuiteEntry.ofSuite results limit s).units).map
            (fun place => (place.1, place.2.unit)) = placesAll [] s.units := by
  refine ⟨?_, ?_, ?_⟩
  · rw [Response.report, List.map_map]
    rfl
  · have sections : suiteSection results limit = fun s => "## Test Suite: " ++ s.name ++ "\n\n" ++ description s ++
        tableHead ++ String.join ((UnitEntry.placesAll [] (SuiteEntry.ofSuite results limit s).units).map entryRow) ++
          "\n" := by
      funext s
      rw [suiteSection_eq, table_eq_join_entryRow]
    unfold report
    rw [sections]
  · intro s
    refine ⟨UnitEntry.unitsOf_ofUnits s.units, ?_⟩
    rw [SuiteEntry.ofSuite, UnitEntry.placesAll_ofUnits, List.map_map]
    simp only [Function.comp_def, UnitEntry.unit_ofUnit, List.map_id']

end Markdown

end SuiteReport
