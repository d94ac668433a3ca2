import SuiteReport.Proofs.Markup.Item
import SuiteReport.Results.JUnit
/-!
# What a report says

A report is a tree of elements. This module says which records it stands for without reading it event by event:
every element `testcase` is a test case, and what it says about its package, its status and its message depends
on the elements around it and the items inside it only.

A report can be read as a tree if no test case stands in another and no failure in another, and if the attributes
and texts that count can be read.

## Main definitions

* `TestCase`: an element `testcase` in its place, with its `TestCase.key` and its `TestCase.record`.
* `testCases`: the test cases among some items, in the order of the document.
* `lastRecord?`: the record of the last test case with a key.
* `Apart`, `Legible`: what an item has to satisfy.
* `OpenCase.after`: an open test case after the items inside it.

## Main results

* `TestCase.record_after`: the record of a test case is the one that is made once all items inside are known.
-/

namespace SuiteReport.JUnit

open Markup Markup.Item

/-! ### Attributes and elements -/

/-- Whether the value of an attribute can be read, or the tag is known not to have it. -/
def readable (tag : Tag) (name : String) : Bool := (attributeValue tag name).isOk

/-- The value of an attribute, which is empty if the tag does not have it. -/
def valueOf (tag : Tag) (name : String) : String := (attributeValue tag name).toOption.getD ""

theorem attributeValue_of_readable {tag : Tag} {name : String} (h : readable tag name = true) :
    attributeValue tag name = .ok (valueOf tag name) := by
  rw [readable] at h
  rw [valueOf]
  cases hv : attributeValue tag name with
  | ok value => rfl
  | error fault => simp [hv, Except.isOk, Except.toBool] at h

/-- Whether a tag belongs to a test case. -/
def isCase (tag : Tag) : Bool := tag.localName == "testcase"

/-- Whether a tag belongs to a suite. -/
def isSuite (tag : Tag) : Bool := tag.localName == "testsuite"

/-- Whether an element of this name says that a case was skipped. -/
def isSkip (name : String) : Bool := name == "skipped"

/-- A failure is no skip. -/
theorem isSkip_eq_false_of_isFailure {name : String} (h : isFailure name = true) : isSkip name = false := by
  simp only [isFailure, Bool.or_eq_true, beq_iff_eq] at h
  rcases h with h | h <;> rw [h] <;> rfl

/-- The names of the suites around an item, innermost first. -/
def suiteNames (around : List Tag) : List String := (around.filter isSuite).map (valueOf · "name")

/-- The name of the innermost suite around an item, which is empty outside all suites. -/
def suiteName (around : List Tag) : String := (suiteNames around).head?.getD ""

/-- Whether an item inside these elements stands inside a failure of the innermost test case around it, if it
stands inside a test case. -/
def inFailure? : List Tag → Option Bool
  | [] => none
  | tag :: around => if isCase tag then some false else (inFailure? around).map (· || isFailure tag.localName)

/-- Only inside a test case can an item be inside a failure of it. -/
theorem inFailure?_eq_none_iff {around : List Tag} :
    inFailure? around = none ↔ ∀ outer ∈ around, isCase outer = false := by
  induction around with
  | nil => simp [inFailure?]
  | cons tag around ih =>
      by_cases h : isCase tag = true
      · simp [inFailure?, h]
      · simp [inFailure?, h, ih]

/-- Outside all failures an item is not inside one of its test case. -/
theorem inFailure?_ne_true {around : List Tag} (h : ∀ outer ∈ around, isFailure outer.localName = false) :
    inFailure? around ≠ some true := by
  induction around with
  | nil => simp [inFailure?]
  | cons tag around ih =>
      have hrest := ih fun outer houter => h outer (List.mem_cons_of_mem tag houter)
      rw [inFailure?]
      split
      · simp
      · simpa [h tag List.mem_cons_self] using hrest

/-! ### What is said inside a test case -/

/-- The messages of the elements among some items whose names are of a kind, in the order of the document. -/
def messages (kind : String → Bool) (inside : List Placed) : List String :=
  ((inside.filterMap (·.item.tag?)).filter (kind ·.localName)).map (valueOf · "message")

/-- The characters inside the failures of a test case that has these items inside. -/
def textInFailures (inside : List Placed) : List Char :=
  (inside.filter (inFailure? ·.around == some true)).flatMap (·.item.characters)

theorem messages_append (kind : String → Bool) (inside later : List Placed) :
    messages kind (inside ++ later) = messages kind inside ++ messages kind later := by
  simp [messages]

theorem textInFailures_append (inside later : List Placed) :
    textInFailures (inside ++ later) = textInFailures inside ++ textInFailures later := by
  simp [textInFailures]

/-- An element by itself is no text. -/
theorem textInFailures_eq_nil {p : Placed} {tag : Tag} (h : p.item.tag? = some tag) : textInFailures [p] = [] := by
  rw [textInFailures, List.flatMap_eq_nil_iff]
  intro q hq
  rw [List.mem_singleton.1 (List.mem_of_mem_filter hq), characters_eq_nil h]

/-- An element that reports on a test case. -/
structure TestCase where
  /-- The tags of the elements around it, innermost first. -/
  around : List Tag
  /-- Its tag. -/
  tag : Tag
  /-- What stands between its tags. -/
  content : List Item

namespace TestCase

/-- The items inside a test case, at any depth. -/
def inside (c : TestCase) : List Placed := placedIn (c.tag :: c.around) c.content

/-- The package of a test case: its class name, or else the name of the innermost suite around it. -/
def package (c : TestCase) : String :=
  let className := valueOf c.tag "classname"
  if className = "" then suiteName c.around else className

/-- The key of a test case. -/
def key (c : TestCase) : String := resultKey c.package (valueOf c.tag "name")

/-- The status of a test case: it fails if there is a failure inside, and else it is skipped if that is said
inside. -/
def status (c : TestCase) : Status :=
  if messages isFailure c.inside ≠ [] then .fail
  else if messages isSkip c.inside ≠ [] then .skip
  else .pass

/-- The message of a test case before trimming: that of its last failure or, where this is empty, the text inside
its failures; without a failure, the message of its last skip. -/
def rawMessage (c : TestCase) : String :=
  match (messages isFailure c.inside).getLast?, (messages isSkip c.inside).getLast? with
  | some message, _ => if message = "" then String.ofList (textInFailures c.inside) else message
  | none, some message => message
  | none, none => ""

/-- The record of a test case. -/
def record (c : TestCase) : Record where
  status := c.status
  duration :=
    let time := Blank.trim (valueOf c.tag "time")
    if time = "" then none else some (time ++ "s")
  message :=
    let message := Blank.trim c.rawMessage
    if message = "" then none else some message

end TestCase

/-- The test case that an item is, if it is one. -/
def testCase? (p : Placed) : Option TestCase :=
  (p.item.tag?.filter isCase).map fun tag => ⟨p.around, tag, p.item.content⟩

/-- The test cases among some items. -/
def testCases (placed : List Placed) : List TestCase := placed.filterMap testCase?

theorem testCases_append (placed later : List Placed) :
    testCases (placed ++ later) = testCases placed ++ testCases later :=
  List.filterMap_append

theorem testCases_cons (p : Placed) (placed : List Placed) :
    testCases (p :: placed) = testCases [p] ++ testCases placed :=
  testCases_append [p] placed

/-- Items none of which is an element `testcase` have no test cases among them. -/
theorem testCases_eq_nil {placed : List Placed} (h : ∀ p ∈ placed, ∀ tag ∈ p.item.tag?, isCase tag = false) :
    testCases placed = [] := by
  rw [testCases, List.filterMap_eq_nil_iff]
  intro p hp
  rw [testCase?, Option.map_eq_none_iff, Option.filter_eq_none_iff]
  intro tag htag
  simp [h p hp tag htag]

/-- An element `testcase` is a test case. -/
theorem testCases_eq_singleton (c : TestCase) (item : Item) (htag : item.tag? = some c.tag)
    (hcontent : item.content = c.content) (hcase : isCase c.tag = true) : testCases [⟨c.around, item⟩] = [c] := by
  simp [testCases, testCase?, htag, hcontent, hcase, Option.filter]

/-- The test cases among some items are test cases. -/
theorem isCase_of_mem_testCases {placed : List Placed} {c : TestCase} (h : c ∈ testCases placed) :
    isCase c.tag = true := by
  obtain ⟨p, -, hp⟩ := List.mem_filterMap.1 h
  obtain ⟨tag, htag, rfl⟩ := Option.map_eq_some_iff.1 hp
  exact (Option.filter_eq_some_iff.1 htag).2

/-- The record of the last test case with a key, if there is one. -/
def lastRecord? (cases : List TestCase) (key : String) : Option Record :=
  (cases.reverse.find? (·.key == key)).map TestCase.record

/-! ### Reports that can be read as trees -/

/-- The tag of the first element. -/
def root? (items : List Item) : Option Tag := (placedIn [] items).findSome? (·.item.tag?)

/-- A test case does not stand inside a test case, and a failure not inside a failure. -/
def Apart (p : Placed) : Prop :=
  ∀ tag ∈ p.item.tag?,
    (isCase tag = true → ∀ outer ∈ p.around, isCase outer = false) ∧
      (isFailure tag.localName = true → ∀ outer ∈ p.around, isFailure outer.localName = false)

instance (p : Placed) : Decidable (Apart p) :=
  inferInstanceAs (Decidable (∀ tag ∈ p.item.tag?,
    (isCase tag = true → ∀ outer ∈ p.around, isCase outer = false) ∧
      (isFailure tag.localName = true → ∀ outer ∈ p.around, isFailure outer.localName = false)))

/-- The attributes that count of an element that reports on a test case or stands inside one. -/
def caseAttributes (around : List Tag) (tag : Tag) : List String :=
  if isCase tag then ["classname", "name", "time"]
  else if (inFailure? around).isSome && (isFailure tag.localName || isSkip tag.localName) then ["message"]
  else []

/-- The attributes that count of an item. The name of a suite without content does not. -/
def attributesOf (p : Placed) : List String :=
  match p.item with
  | .element tag _ => if isSuite tag then ["name"] else caseAttributes p.around tag
  | .empty tag => caseAttributes p.around tag
  | _ => []

/-- The attributes of an item that count can be read, and so can a text inside a failure of a test case. -/
def Legible (p : Placed) : Prop :=
  (∀ tag ∈ p.item.tag?, ∀ name ∈ attributesOf p, readable tag name = true) ∧
    (inFailure? p.around = some true → p.item.expands = true)

instance (p : Placed) : Decidable (Legible p) :=
  inferInstanceAs (Decidable ((∀ tag ∈ p.item.tag?, ∀ name ∈ attributesOf p, readable tag name = true) ∧
    (inFailure? p.around = some true → p.item.expands = true)))

/-! ### An open test case and the items inside -/

namespace OpenCase

/-- An open test case after more items inside it have been read. -/
def after (c : OpenCase) (inside : List Placed) : OpenCase :=
  { c with
    failure := (messages isFailure inside).getLast?.or c.failure
    skipped := (messages isSkip inside).getLast?.or c.skipped
    failureText := c.failureText ++ String.ofList (textInFailures inside) }

theorem nonempty?_eq (s : String) : nonempty? s = if s = "" then none else some s := by
  simp [nonempty?, String.isEmpty_iff]

theorem after_nil (c : OpenCase) : c.after [] = c := by
  simp [after, messages, textInFailures]

/-- Items are read one after the other. -/
theorem after_append (c : OpenCase) (inside later : List Placed) :
    c.after (inside ++ later) = (c.after inside).after later := by
  simp [after, messages_append, textInFailures_append, List.getLast?_append, Option.or_assoc, String.append_assoc]

/-- An element inside a test case counts by its name and its message. -/
theorem after_tag (c : OpenCase) (around : List Tag) (item : Item) {tag : Tag} (h : item.tag? = some tag) :
    c.after [⟨around, item⟩] =
      { c with
        failure := if isFailure tag.localName = true then some (valueOf tag "message") else c.failure
        skipped := if isSkip tag.localName = true then some (valueOf tag "message") else c.skipped } := by
  have htext : textInFailures [⟨around, item⟩] = [] := textInFailures_eq_nil h
  have hmessages (kind : String → Bool) : (messages kind [⟨around, item⟩]).getLast? =
      if kind tag.localName = true then some (valueOf tag "message") else none := by
    by_cases hkind : kind tag.localName = true <;> simp [messages, h, hkind]
  rw [after, htext, hmessages, hmessages]
  by_cases hf : isFailure tag.localName = true <;> by_cases hk : isSkip tag.localName = true <;> simp [hf, hk]

/-- Anything else inside a test case counts by its characters, if it stands inside a failure. -/
theorem after_characters (c : OpenCase) (around : List Tag) (item : Item) (h : item.tag? = none) :
    c.after [⟨around, item⟩] =
      { c with
        failureText := c.failureText ++
          if inFailure? around = some true then String.ofList item.characters else "" } := by
  by_cases hin : inFailure? around = some true <;> simp [after, messages, textInFailures, h, hin]

end OpenCase

namespace TestCase

/-- The test case when its tag has been read. -/
def opened (c : TestCase) : OpenCase :=
  ⟨valueOf c.tag "classname", valueOf c.tag "name", valueOf c.tag "time", none, none, "", false⟩

/-- The package of a test case is the one that is found at its end. -/
theorem package_after (c : TestCase) : (c.opened.after c.inside).package (suiteName c.around) = c.package := by
  simp [OpenCase.package, OpenCase.after, opened, package, String.isEmpty_iff]

/-- **The record of a test case** is the one that is made once all items inside are known. -/
theorem record_after (c : TestCase) : (c.opened.after c.inside).record = c.record := by
  have status : (c.opened.after c.inside).status = c.status := by
    simp [OpenCase.status, OpenCase.after, opened, TestCase.status]
  have message : (c.opened.after c.inside).rawMessage = c.rawMessage := by
    simp only [OpenCase.rawMessage, OpenCase.after, opened, rawMessage, Option.or_none, String.empty_append]
    cases (messages isFailure c.inside).getLast? <;> cases (messages isSkip c.inside).getLast? <;>
      simp [String.isEmpty_iff]
  have duration : (c.opened.after c.inside).time = valueOf c.tag "time" := rfl
  rw [OpenCase.record, record, status, message, duration, OpenCase.nonempty?_eq, OpenCase.nonempty?_eq,
    apply_ite (Option.map (· ++ "s"))]
  rfl

end TestCase

end SuiteReport.JUnit
