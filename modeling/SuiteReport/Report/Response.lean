import SuiteReport.Failure
import SuiteReport.Json.Value
import SuiteReport.Report.Entry
/-!
# Responses

The JSON documents that commands answer with. Each one begins with its status and the version of its form.
What a response leaves out when there is nothing to say may be missing when a response is read.

## Main definitions

* `Response.list`, `Response.report`, `Response.failure`: the responses.
* `Response.tree?`: the tree that a JSON value describes, for units and for their entries in a report.
* `Response.suites?`: the suites that a JSON value describes.
* `ListResponse.ofJson?`, `ReportResponse.ofJson?`: the responses that a JSON value describes.
-/

namespace SuiteReport

namespace Response

/-- The version of the form of all responses. -/
def schemaVersion : String := "1"

/-- A response with its status and version first. -/
def withStatus (status : String) (fields : List (String × JsonValue)) : JsonValue :=
  .object ([("status", .string status), ("schema_version", .string schemaVersion)] ++ fields)

/-- A field that is left out if it has no value. -/
def optionalField (key : String) (value : Option String) : List (String × JsonValue) :=
  value.toList.map fun s => (key, .string s)

/-- The word for a status. -/
def statusWord : Status → String
  | .pass => "PASS"
  | .fail => "FAIL"
  | .skip => "SKIP"
  | .notRun => "NOT_RUN"

/-- The status that a word stands for. -/
def status? (word : String) : Option Status :=
  [Status.pass, .fail, .skip, .notRun].find? (statusWord · == word)

/-! ### Lists -/

mutual

/-- A unit as it appears in a list. -/
def ofUnit : TestUnit → JsonValue
  | ⟨name, machineName, comment, subtests⟩ =>
    .object [
      ("name", .string name),
      ("machine_name", .string machineName),
      ("comment", .string comment),
      ("subtests", .array (ofUnits subtests))]

/-- Units as they appear in a list. -/
def ofUnits : List TestUnit → List JsonValue
  | [] => []
  | u :: us => ofUnit u :: ofUnits us

end

/-- A suite as it appears in a list. -/
def ofSuite (s : TestSuite) : JsonValue :=
  .object (
    [("package", .string s.package), ("name", .string s.name)]
      ++ optionalField "description" s.description
      ++ [("units", .array (ofUnits s.units))])

/-- The answer to a request for the units of suites. -/
def list (suites : List TestSuite) : JsonValue :=
  withStatus "ok" [
    ("unit_count", .number (TestSuite.countAll suites)),
    ("suites", .array (suites.map ofSuite))]

/-! ### Reports -/

mutual

/-- A unit as it appears in a report. -/
def ofUnitEntry : UnitEntry → JsonValue
  | ⟨name, machineName, comment, summary, status, duration, failure, subtests⟩ =>
    .object (
      [("name", .string name),
        ("machine_name", .string machineName),
        ("comment", .string comment),
        ("summary", .string summary),
        ("status", .string (statusWord status)),
        ("duration", duration.elim .null .string)]
      ++ optionalField "failure" failure
      ++ [("subtests", .array (ofUnitEntries subtests))])

/-- Units as they appear in a report. -/
def ofUnitEntries : List UnitEntry → List JsonValue
  | [] => []
  | u :: us => ofUnitEntry u :: ofUnitEntries us

end

/-- A suite as it appears in a report. -/
def ofSuiteEntry (s : SuiteEntry) : JsonValue :=
  .object (
    [("package", .string s.package), ("name", .string s.name)]
      ++ optionalField "description" s.description
      ++ [("units", .array (ofUnitEntries s.units))])

/-- The answer to a request for a report, which shows at most `limit` characters of a failure. -/
def report (suites : List TestSuite) (results : Results) (limit : Nat) : JsonValue :=
  withStatus "ok" [
    ("suites", .array (suites.map fun s => ofSuiteEntry (SuiteEntry.ofSuite results limit s)))]

/-! ### Failures -/

/-- The answer to a request that failed. -/
def failure (f : Failure) : JsonValue :=
  withStatus "error" [
    ("error", .object (
      [("code", .number f.exitCode), ("message", .string f.message)] ++ optionalField "path" f.path?))]

/-! ### Reading -/

/-- The text in a field that must be there. -/
def text? (fields : List (String × JsonValue)) (key : String) : Option String :=
  (fields.lookup key).bind JsonValue.string?

/-- The text in a field, or the default if the field is missing. -/
def textOr? (fields : List (String × JsonValue)) (key default : String) : Option String :=
  match fields.lookup key with
  | none => some default
  | some v => v.string?

/-- The text in a field that may be missing or have no value. -/
def optionalText? (fields : List (String × JsonValue)) (key : String) : Option (Option String) :=
  match fields.lookup key with
  | none | some .null => some none
  | some v => v.string?.map some

/-- The key of the field with the sub-tests. -/
def subtestsKey : String := "subtests"

/-- **How the values of a kind of tree are read.** -/
structure TreeReader (α : Type) where
  /-- What a root is, given its fields and the trees below it. -/
  root? : List (String × JsonValue) → List α → Option α
  /-- What stands below a root without a field for it, unless the field must be there. -/
  default? : Option (List α)

mutual

/-- The tree that a value describes. -/
def tree? {α : Type} (r : TreeReader α) : JsonValue → Option α
  | .object fields => do r.root? fields (← below? r fields)
  | _ => none

/-- The trees in the first field with the key for them, or the default if there is no such field. -/
def below? {α : Type} (r : TreeReader α) : List (String × JsonValue) → Option (List α)
  | [] => r.default?
  | (key, v) :: later => if key = subtestsKey then trees? r v else below? r later

/-- The trees that a value is a row of. -/
def trees? {α : Type} (r : TreeReader α) : JsonValue → Option (List α)
  | .array vs => treeList? r vs
  | _ => none

/-- The trees that several values describe. -/
def treeList? {α : Type} (r : TreeReader α) : List JsonValue → Option (List α)
  | [] => some []
  | v :: vs => do
    return (← tree? r v) :: (← treeList? r vs)

end

/-- How units are read. The comment and the sub-tests may be missing. -/
def unitReader : TreeReader TestUnit where
  root? fields subtests := do
    return {
      name := ← text? fields "name"
      machineName := ← text? fields "machine_name"
      comment := ← textOr? fields "comment" ""
      subtests }
  default? := some []

/-- The suite that a value describes. The description may be missing. -/
def suite? (v : JsonValue) : Option TestSuite := do
  let fields ← v.object?
  return {
    package := ← text? fields "package"
    name := ← text? fields "name"
    description := ← optionalText? fields "description"
    units := ← (fields.lookup "units").bind (trees? unitReader) }

/-- The suites that a value is a row of. -/
def suites? (v : JsonValue) : Option (List TestSuite) := do
  (← v.array?).mapM suite?

/-- The record that a value describes. Only the status has to be there. -/
def record? (v : JsonValue) : Option Record := do
  let fields ← v.object?
  return {
    status := ← (text? fields "status").bind status?
    duration := ← optionalText? fields "duration"
    message := ← optionalText? fields "message" }

/-- The results that a value describes, each record under its key. -/
def results? (v : JsonValue) : Option Results := do
  (← v.object?).foldlM (fun (r : Results) (key, v) => do return r.insert key (← record? v)) Results.empty

/-- How the entries of units are read. Only the duration and the failure may be missing. -/
def entryReader : TreeReader UnitEntry where
  root? fields subtests := do
    return {
      name := ← text? fields "name"
      machineName := ← text? fields "machine_name"
      comment := ← text? fields "comment"
      summary := ← text? fields "summary"
      status := ← (text? fields "status").bind status?
      duration := ← optionalText? fields "duration"
      failure := ← optionalText? fields "failure"
      subtests }
  default? := none

/-- The entry of a suite that a value describes. The description may be missing. -/
def reportedSuite? (v : JsonValue) : Option SuiteEntry := do
  let fields ← v.object?
  return {
    package := ← text? fields "package"
    name := ← text? fields "name"
    description := ← optionalText? fields "description"
    units := ← (fields.lookup "units").bind (trees? entryReader) }

/-- The entries of suites that a value is a row of. -/
def reportedSuites? (v : JsonValue) : Option (List SuiteEntry) := do
  (← v.array?).mapM reportedSuite?

end Response

/-! ### What responses say -/

/-- What a response to a request for the units of suites says. -/
structure ListResponse where
  /-- The status. -/
  status : String
  /-- The version of the form of the response. -/
  schemaVersion : String
  /-- The number of units in all suites. -/
  unitCount : Nat
  /-- The suites. -/
  suites : List TestSuite
deriving Repr

/-- What a response to a request for a report says. -/
structure ReportResponse where
  /-- The status. -/
  status : String
  /-- The version of the form of the response. -/
  schemaVersion : String
  /-- The suites, joined with their results. -/
  suites : List SuiteEntry
deriving Repr

namespace ListResponse

/-- The answer to a request for the units of suites. -/
def ofSuites (suites : List TestSuite) : ListResponse :=
  ⟨"ok", Response.schemaVersion, TestSuite.countAll suites, suites⟩

/-- The response as a value. -/
def toJson (r : ListResponse) : JsonValue :=
  .object [
    ("status", .string r.status),
    ("schema_version", .string r.schemaVersion),
    ("unit_count", .number r.unitCount),
    ("suites", .array (r.suites.map Response.ofSuite))]

/-- The response that a value describes. -/
def ofJson? (v : JsonValue) : Option ListResponse := do
  let fields ← v.object?
  return {
    status := ← Response.text? fields "status"
    schemaVersion := ← Response.text? fields "schema_version"
    unitCount := ← (fields.lookup "unit_count").bind JsonValue.number?
    suites := ← (fields.lookup "suites").bind Response.suites? }

end ListResponse

namespace ReportResponse

/-- The answer to a request for a report, which shows at most `limit` characters of a failure. -/
def ofSuites (suites : List TestSuite) (results : Results) (limit : Nat) : ReportResponse :=
  ⟨"ok", Response.schemaVersion, suites.map fun s => SuiteEntry.ofSuite results limit s⟩

/-- The response as a value. -/
def toJson (r : ReportResponse) : JsonValue :=
  .object [
    ("status", .string r.status),
    ("schema_version", .string r.schemaVersion),
    ("suites", .array (r.suites.map Response.ofSuiteEntry))]

/-- The response that a value describes. -/
def ofJson? (v : JsonValue) : Option ReportResponse := do
  let fields ← v.object?
  return {
    status := ← Response.text? fields "status"
    schemaVersion := ← Response.text? fields "schema_version"
    suites := ← (fields.lookup "suites").bind Response.reportedSuites? }

end ReportResponse

end SuiteReport
