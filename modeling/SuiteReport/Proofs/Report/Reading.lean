import SuiteReport.Report.Response
/-!
# Reading responses back

What a response says can be read back from its value. The fields of a response follow different rules: one without a
value is left out, or written as no value, and when it is read it may have to be there or have a default. Reading and
writing keep to the same rule for each field, at each level of the trees of units, so nothing is lost or made up, and
what is absent stays apart from what is empty.

Trees of units and trees of their entries in a report are read in the same way. So the trees are dealt with once: for
any kind of tree whose root is read back from its fields, the trees are read back.

## Main definitions

* `Response.Fits`: what it is for the root of any tree of a kind to be read back.
* `Response.field?`: the value in a field.

## Main results

* `Response.tree?_of_eq_write`, `Response.trees?_write`: trees are read back.
* `ListResponse.ofJson?_toJson`, `ReportResponse.ofJson?_toJson`: responses are read back.
* `responses_read_back`: the answers to requests are read back, and what is absent stays apart from what is empty.
-/

namespace SuiteReport

namespace Response

/-! ### Trees -/

section Trees

variable {α : Type} {r : TreeReader α} {write : α → JsonValue} {below : α → List α}

/-- **Whether the root of each tree is read back**: a tree is written as an object, with the trees below it in the field
for them, and is made again of its fields and of these trees. -/
def Fits (r : TreeReader α) (write : α → JsonValue) (below : α → List α) : Prop :=
  ∀ a, ∃ fields, write a = .object fields ∧
    fields.lookup subtestsKey = some (.array ((below a).map write)) ∧ r.root? fields (below a) = some a

mutual

/-- **Trees are read back.** The induction is on the value that is read. -/
theorem tree?_of_eq_write (h : Fits r write below) : ∀ (v : JsonValue) (a : α), v = write a → tree? r v = some a
  | .object fields, a, hv => by
      obtain ⟨written, hwrite, hbelow, hroot⟩ := h a
      obtain rfl : fields = written := JsonValue.object.inj (hv.trans hwrite)
      rw [tree?, below?_of_lookup h fields (below a) hbelow]
      exact hroot
  | .null, a, hv | .boolean _, a, hv | .number _, a, hv | .string _, a, hv | .array _, a, hv => by
      obtain ⟨fields, hwrite, -⟩ := h a
      cases hv.trans hwrite

/-- The trees in the field for them are read back. -/
theorem below?_of_lookup (h : Fits r write below) : ∀ (fields : List (String × JsonValue)) (trees : List α),
    fields.lookup subtestsKey = some (.array (trees.map write)) → below? r fields = some trees
  | [], trees, hfields => by cases hfields
  | (key, v) :: later, trees, hfields => by
      rw [below?]
      by_cases hkey : key = subtestsKey
      · rw [if_pos hkey]
        rw [hkey, List.lookup_cons_self] at hfields
        exact trees?_of_eq_write h v trees (Option.some.inj hfields)
      · rw [if_neg hkey]
        have passed : (subtestsKey == key) = false := beq_false_of_ne (Ne.symm hkey)
        rw [List.lookup_cons, passed] at hfields
        exact below?_of_lookup h later trees hfields

/-- Trees in a row are read back. -/
theorem trees?_of_eq_write (h : Fits r write below) : ∀ (v : JsonValue) (trees : List α),
    v = .array (trees.map write) → trees? r v = some trees
  | .array vs, trees, hv => by
      rw [trees?]
      exact treeList?_of_eq_write h vs trees (JsonValue.array.inj hv)
  | .null, trees, hv | .boolean _, trees, hv | .number _, trees, hv | .string _, trees, hv | .object _, trees, hv => by
      cases hv

/-- Several trees are read back. -/
theorem treeList?_of_eq_write (h : Fits r write below) : ∀ (vs : List JsonValue) (trees : List α),
    vs = trees.map write → treeList? r vs = some trees
  | [], trees, hvs => by
      obtain rfl : trees = [] := List.map_eq_nil_iff.1 hvs.symm
      rw [treeList?]
  | v :: vs, trees, hvs => by
      cases trees with
      | nil => cases hvs
      | cons a trees =>
          obtain ⟨hv, hlater⟩ := List.cons.inj hvs
          rw [treeList?, tree?_of_eq_write h v a hv, treeList?_of_eq_write h vs trees hlater]
          rfl

end

/-- Trees in a row are read back. -/
theorem trees?_write (h : Fits r write below) (trees : List α) :
    trees? r (.array (trees.map write)) = some trees :=
  trees?_of_eq_write h _ trees rfl

end Trees

/-! ### Units and their entries -/

/-- Several units are written one by one. -/
theorem ofUnits_eq_map (us : List TestUnit) : ofUnits us = us.map ofUnit := by
  induction us with
  | nil => rfl
  | cons u us ih => rw [ofUnits, ih, List.map_cons]

/-- The entries of several units are written one by one. -/
theorem ofUnitEntries_eq_map (us : List UnitEntry) : ofUnitEntries us = us.map ofUnitEntry := by
  induction us with
  | nil => rfl
  | cons u us ih => rw [ofUnitEntries, ih, List.map_cons]

/-- A unit is read back from its fields. -/
theorem fits_unit : Fits unitReader ofUnit TestUnit.subtests := by
  rintro ⟨name, machineName, comment, subtests⟩
  rw [ofUnit, ofUnits_eq_map]
  exact ⟨_, rfl, rfl, rfl⟩

/-- The word for a status stands for it. -/
theorem status?_statusWord (s : Status) : status? (statusWord s) = some s := by
  cases s <;> decide

/-- The entry of a unit is read back from its fields. -/
theorem fits_entry : Fits entryReader ofUnitEntry UnitEntry.subtests := by
  rintro ⟨name, machineName, comment, summary, status, duration, failure, subtests⟩
  rw [ofUnitEntry, ofUnitEntries_eq_map]
  refine ⟨_, rfl, ?_, ?_⟩
  · cases failure <;> rfl
  · have word := status?_statusWord status
    cases duration <;> cases failure <;>
      simp [entryReader, text?, optionalText?, optionalField, List.lookup_cons, JsonValue.string?, word]

/-! ### Suites and their entries -/

/-- Values in a row are read back if each of them is. -/
theorem mapM_map_of_read {α : Type} {write : α → JsonValue} {read? : JsonValue → Option α}
    (h : ∀ a, read? (write a) = some a) (l : List α) : (l.map write).mapM read? = some l := by
  induction l with
  | nil => rfl
  | cons a l ih =>
      rw [List.map_cons, List.mapM_cons, h, ih]
      rfl

/-- A suite is read back. -/
theorem suite?_ofSuite (s : TestSuite) : suite? (ofSuite s) = some s := by
  obtain ⟨package, name, description, units⟩ := s
  have trees := trees?_write fits_unit units
  cases description <;>
    simp [suite?, ofSuite, ofUnits_eq_map, JsonValue.object?, text?, optionalText?, optionalField, List.lookup_cons,
      JsonValue.string?, trees]

/-- The entry of a suite is read back. -/
theorem reportedSuite?_ofSuiteEntry (s : SuiteEntry) : reportedSuite? (ofSuiteEntry s) = some s := by
  obtain ⟨package, name, description, units⟩ := s
  have trees := trees?_write fits_entry units
  cases description <;>
    simp [reportedSuite?, ofSuiteEntry, ofUnitEntries_eq_map, JsonValue.object?, text?, optionalText?, optionalField,
      List.lookup_cons, JsonValue.string?, trees]

/-! ### What is absent -/

/-- The value in a field of an object. -/
def field? (v : JsonValue) (key : String) : Option JsonValue := v.object?.bind (·.lookup key)

/-- A suite has a description exactly if there is a field for it. -/
theorem field?_description (s : TestSuite) :
    field? (ofSuite s) "description" = s.description.map JsonValue.string := by
  rw [ofSuite]
  cases s.description <;> rfl

/-- The entry of a suite has a description exactly if there is a field for it. -/
theorem field?_description_entry (s : SuiteEntry) :
    field? (ofSuiteEntry s) "description" = s.description.map JsonValue.string := by
  rw [ofSuiteEntry]
  cases s.description <;> rfl

/-- The entry of a unit shows a failure exactly if there is a field for it. -/
theorem field?_failure (u : UnitEntry) : field? (ofUnitEntry u) "failure" = u.failure.map JsonValue.string := by
  obtain ⟨name, machineName, comment, summary, status, duration, failure, subtests⟩ := u
  rw [ofUnitEntry]
  cases failure <;> rfl

/-- The entry of a unit always has a field for the duration, which has no value if there is none. -/
theorem field?_duration (u : UnitEntry) :
    field? (ofUnitEntry u) "duration" = some (u.duration.elim .null .string) := by
  obtain ⟨name, machineName, comment, summary, status, duration, failure, subtests⟩ := u
  rw [ofUnitEntry]
  rfl

end Response

open Response

/-- **Lists are read back**, whatever they say. -/
theorem ListResponse.ofJson?_toJson (r : ListResponse) : ofJson? r.toJson = some r := by
  obtain ⟨status, schemaVersion, unitCount, suites⟩ := r
  have read : suites? (.array (suites.map ofSuite)) = some suites := mapM_map_of_read suite?_ofSuite suites
  simp [ofJson?, toJson, JsonValue.object?, text?, List.lookup_cons, JsonValue.string?, JsonValue.number?, read]

/-- **Reports are read back**, whatever they say. -/
theorem ReportResponse.ofJson?_toJson (r : ReportResponse) : ofJson? r.toJson = some r := by
  obtain ⟨status, schemaVersion, suites⟩ := r
  have read : reportedSuites? (.array (suites.map ofSuiteEntry)) = some suites :=
    mapM_map_of_read reportedSuite?_ofSuiteEntry suites
  simp [ofJson?, toJson, JsonValue.object?, text?, List.lookup_cons, JsonValue.string?, read]

/-- The answer to a request for the units of suites is the value of what it says. -/
theorem ListResponse.toJson_ofSuites (suites : List TestSuite) : (ofSuites suites).toJson = Response.list suites := rfl

/-- The answer to a request for a report is the value of what it says. -/
theorem ReportResponse.toJson_ofSuites (suites : List TestSuite) (results : Results) (limit : Nat) :
    (ofSuites suites results limit).toJson = Response.report suites results limit := by
  rw [toJson, ofSuites, List.map_map]
  rfl

/-- **Answers are read back.** The answer to a request for the units of suites gives back the suites and the number of
their units, and the one to a request for a report gives back the report; and so does every response, also one that no
request is answered with. What is absent stays apart from what is empty: a description or a failure that is absent has
no field, a duration that is absent has a field without a value, and a text in these fields is the one that is there. -/
theorem responses_read_back :
    (∀ suites : List TestSuite,
      ListResponse.ofJson? (Response.list suites) =
        some ⟨"ok", Response.schemaVersion, TestSuite.countAll suites, suites⟩) ∧
    (∀ (suites : List TestSuite) (results : Results) (limit : Nat),
      ReportResponse.ofJson? (Response.report suites results limit) =
        some ⟨"ok", Response.schemaVersion, suites.map (SuiteEntry.ofSuite results limit)⟩) ∧
    (∀ r : ListResponse, ListResponse.ofJson? r.toJson = some r) ∧
    (∀ r : ReportResponse, ReportResponse.ofJson? r.toJson = some r) ∧
    (∀ s : TestSuite, field? (ofSuite s) "description" = s.description.map JsonValue.string) ∧
    (∀ s : SuiteEntry, field? (ofSuiteEntry s) "description" = s.description.map JsonValue.string) ∧
    ∀ u : UnitEntry,
      field? (ofUnitEntry u) "failure" = u.failure.map JsonValue.string ∧
        field? (ofUnitEntry u) "duration" = some (u.duration.elim .null .string) := by
  refine ⟨fun suites => ?_, fun suites results limit => ?_, ListResponse.ofJson?_toJson, ReportResponse.ofJson?_toJson,
    field?_description, field?_description_entry, fun u => ⟨field?_failure u, field?_duration u⟩⟩
  · rw [← ListResponse.toJson_ofSuites, ListResponse.ofJson?_toJson]
    rfl
  · rw [← ReportResponse.toJson_ofSuites, ReportResponse.ofJson?_toJson]
    rfl

end SuiteReport
