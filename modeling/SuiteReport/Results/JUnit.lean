import SuiteReport.Markup.Event
import SuiteReport.Results.Record
/-!
# Reading JUnit reports

A JUnit report is a document whose root is `testsuites` or `testsuite`. Every `testcase` in it gives one
record. The package of a case is its class name, or else the name of the innermost open suite. A `failure`
or `error` makes the case fail, a `skipped` alone makes it skipped. The message is the `message` attribute
of the last such element or, for a failure whose attribute is empty, the text inside the failures.

The report is read event by event. What is not part of a suite or case is passed over; a fault in the
markup, or in an attribute or a text that is needed, makes the whole report unreadable.

## Main definitions

* `JUnit.State`: what is known between two events.
* `JUnit.State.step`: the effect of an event.
* `JUnit.parse`: the results of a report.
-/

namespace SuiteReport.JUnit

open Markup

/-- Why a report gives no results. -/
inductive ReportError where
  /-- The document is not well formed. -/
  | malformed (fault : Fault)
  /-- The first element is neither a suite nor a list of suites. -/
  | unexpectedRoot (name : String)
  /-- The document has no element. -/
  | noRoot
deriving DecidableEq, Repr

/-- The wording of an error. -/
def ReportError.message : ReportError → String
  | .malformed _ => "malformed JUnit XML"
  | .unexpectedRoot name => rootExpected ++ "<" ++ name ++ ">"
  | .noRoot => rootExpected ++ "no root element"
where
  /-- The beginning of the complaints about the root. -/
  rootExpected : String := "expected a <testsuites> or <testsuite> root element, found "

/-- A test case whose element is open. -/
structure OpenCase where
  /-- The class name, which is empty if there is none. -/
  className : String
  /-- The machine name of the test. -/
  name : String
  /-- The time as it is written, without a unit. -/
  time : String
  /-- The message of the last `skipped`, if there was one. -/
  skipped : Option String
  /-- The message of the last failure, if there was one. -/
  failure : Option String
  /-- The texts inside the failures, joined. -/
  failureText : String
  /-- Whether the element of a failure is open. -/
  inFailure : Bool
deriving DecidableEq, Repr

/-- What is known between two events of a report. -/
structure State where
  /-- Whether the root has been seen. -/
  rootSeen : Bool
  /-- The names of the open suites, innermost first. -/
  suites : List String
  /-- The open test case, if there is one. -/
  openCase : Option OpenCase
  /-- The results so far. -/
  results : Results
deriving Repr

namespace State

/-- What is known before the first event. -/
def initial : State := ⟨false, [], none, .empty⟩

end State

/-- The value of an attribute, which is empty if the tag does not have it. -/
def attributeValue (tag : Tag) (name : String) : Except ReportError String :=
  match Attribute.find? tag.attributes name with
  | .ok value => .ok (value.getD "")
  | .error fault => .error (.malformed (.brokenAttribute fault))

/-- Whether an element of this name is a failure. -/
def isFailure (name : String) : Bool := name == "failure" || name == "error"

/-- Checks that an element of this name may be the root. -/
def checkRoot (name : String) : Except ReportError Unit :=
  if name = "testsuites" ∨ name = "testsuite" then .ok () else .error (.unexpectedRoot name)

namespace OpenCase

/-- The test case that a tag opens. -/
def ofTag (tag : Tag) : Except ReportError OpenCase := do
  let className ← attributeValue tag "classname"
  let name ← attributeValue tag "name"
  let time ← attributeValue tag "time"
  return ⟨className, name, time, none, none, "", false⟩

/-- The text unless it is empty. -/
def nonempty? (s : String) : Option String := if s.isEmpty then none else some s

/-- The package of the case when `suite` is the name of the innermost suite. -/
def package (c : OpenCase) (suite : String) : String :=
  if c.className.isEmpty then suite else c.className

/-- The status of the case: a failure outweighs a skip. -/
def status (c : OpenCase) : Status :=
  if c.failure.isSome then .fail else if c.skipped.isSome then .skip else .pass

/-- The message of the case before trimming. -/
def rawMessage (c : OpenCase) : String :=
  match c.failure, c.skipped with
  | some message, _ => if message.isEmpty then c.failureText else message
  | none, some message => message
  | none, none => ""

/-- The record of the case. Times are in seconds. -/
def record (c : OpenCase) : Record where
  status := c.status
  duration := (nonempty? (Blank.trim c.time)).map (· ++ "s")
  message := nonempty? (Blank.trim c.rawMessage)

end OpenCase

namespace State

/-- The name of the innermost suite, which is empty outside all suites. -/
def suite (s : State) : String := s.suites.head?.getD ""

/-- Records a case that has been read. -/
def finish (s : State) (c : OpenCase) : State :=
  { s with results := s.results.insert (resultKey (c.package s.suite) c.name) c.record }

/-- The effect of a child of the open test case that says how it ended. -/
def outcome (s : State) (tag : Tag) (hasContent : Bool) : Except ReportError State := do
  match s.openCase with
  | none => return s
  | some c =>
    if isFailure tag.localName then
      let message ← attributeValue tag "message"
      let c := { c with failure := some message, inFailure := c.inFailure || hasContent }
      return { s with openCase := some c }
    else if tag.localName = "skipped" then
      let message ← attributeValue tag "message"
      return { s with openCase := some { c with skipped := some message } }
    else
      return s

/-- The effect of the root's tag. An empty root has no suite to name. -/
def root (s : State) (tag : Tag) (hasContent : Bool) : Except ReportError State := do
  checkRoot tag.localName
  if hasContent ∧ tag.localName = "testsuite" then
    let name ← attributeValue tag "name"
    return { s with rootSeen := true, suites := name :: s.suites }
  else
    return { s with rootSeen := true }

/-- The effect of a text inside a failure of the open case; elsewhere texts have none. -/
def text (s : State) (content : Except ReportError (List Char)) : Except ReportError State := do
  match s.openCase with
  | some c =>
    if c.inFailure then
      let content ← content
      return { s with openCase := some { c with failureText := c.failureText ++ String.ofList content } }
    else
      return s
  | none => return s

/-- The text with its references expanded. -/
def expandText (raw : List Char) : Except ReportError (List Char) :=
  match expand? raw with
  | some content => .ok content
  | none => .error (.malformed .unknownReference)

/-- The effect of an end tag. -/
def close (s : State) (name : String) : State :=
  if name = "testsuite" then
    { s with suites := s.suites.tail }
  else if name = "testcase" then
    match s.openCase with
    | none => s
    | some c => { s.finish c with openCase := none }
  else if isFailure name then
    { s with openCase := s.openCase.map fun c => { c with inFailure := false } }
  else
    s

/-- The effect of one event. -/
def step (s : State) : Event → Except ReportError State
  | .opened tag =>
    if !s.rootSeen then
      s.root tag true
    else if tag.localName = "testsuite" then do
      let name ← attributeValue tag "name"
      return { s with suites := name :: s.suites }
    else if tag.localName = "testcase" then do
      let c ← OpenCase.ofTag tag
      return { s with openCase := some c }
    else
      s.outcome tag true
  | .empty tag =>
    if !s.rootSeen then
      s.root tag false
    else if tag.localName = "testcase" then do
      let c ← OpenCase.ofTag tag
      return s.finish c
    else
      s.outcome tag false
  | .closed name => .ok (s.close (String.ofList (localPart name)))
  | .text raw => s.text (expandText raw)
  | .cdata content => s.text (.ok content)
  | .other => .ok s

end State

/-- The results of a report. The first fault or unexpected root, in the order of the document, makes the
report unreadable. -/
def parse (document : String) : Except ReportError Results := do
  let reading := Reading.ofString document
  let s ← reading.events.foldlM State.step State.initial
  match reading.fault with
  | some fault => throw (.malformed fault)
  | none => if s.rootSeen then return s.results else throw .noRoot

end SuiteReport.JUnit
