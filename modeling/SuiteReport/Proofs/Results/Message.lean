import SuiteReport.Proofs.Results.Acceptance
import SuiteReport.Proofs.Results.Unfinished
import SuiteReport.Proofs.Text.Trim
/-!
# Messages of failed test cases

The record of a failed test case need not have a message, even if a failure inside has one. The last failure decides:
its `message` attribute is taken if it is not empty, and only else the text inside the failures. So a message that is
nothing but white space hides the text, and a last failure without a message hides those of the failures before it.
Of the text, only that is heard which stands in an open failure, and the end of a failure ends those around it too.
This module says exactly when a record has a message.

## Main definitions

* `heard`: the text that is heard inside a test case.
* `OpenCase.behind`: an open test case behind some events.
* `SaysNothing`: a text of nothing but white space.

## Main results

* `OpenCase.readAll_eq_behind`: what reading some events does to an open test case, said at once.
* `isSome_message_iff`: when the record of a failed test case has a message.
* `exists_message_lost`: a failure with a text whose test case has no message.
-/

namespace SuiteReport.JUnit

open Markup Markup.Item

/-! ### What is heard -/

/-- Whether a failure is open behind an event, if it is known whether one is open before it. -/
def failingBehind (failing : Bool) : Event → Bool
  | .opened tag => failing || isFailure tag.localName
  | .closed name => failing && !isFailure (String.ofList (localPart name))
  | _ => failing

/-- The characters of an event. -/
def charactersOf : Event → List Char
  | .text raw => (expand? raw).getD []
  | .cdata content => content
  | _ => []

/-- **The text that is heard** among some events: that in an open failure. The end of a failure is taken for the end of
all failures that are open. -/
def heard (failing : Bool) : List Event → List Char
  | [] => []
  | e :: rest => (if failing then charactersOf e else []) ++ heard (failingBehind failing e) rest

/-- The tag of the element that an event begins. -/
def beginning? : Event → Option Tag
  | .opened tag | .empty tag => some tag
  | _ => none

/-- The messages of the elements that some events begin and whose names are of a kind. -/
def messagesAmong (kind : String → Bool) (events : List Event) : List String :=
  ((events.filterMap beginning?).filter (kind ·.localName)).map (valueOf · "message")

theorem heard_append (failing : Bool) (events later : List Event) :
    heard failing (events ++ later) = heard failing events ++ heard (events.foldl failingBehind failing) later := by
  induction events generalizing failing with
  | nil => rfl
  | cons e rest ih => rw [List.cons_append, heard, heard, ih, List.append_assoc, List.foldl_cons]

theorem messagesAmong_append (kind : String → Bool) (events later : List Event) :
    messagesAmong kind (events ++ later) = messagesAmong kind events ++ messagesAmong kind later := by
  simp [messagesAmong]

mutual

/-- The elements that the events of an item begin are those in it. -/
theorem filterMap_beginning?_events (around : List Tag) : ∀ item : Item,
    item.events.filterMap beginning? = (⟨around, item⟩ :: placedInside around item).filterMap (·.item.tag?)
  | .element tag content => by
      have inside := filterMap_beginning?_eventsOf (tag :: around) content
      simp [Item.events, placedInside, beginning?, tag?, inside]
  | .empty tag => rfl
  | .text raw => rfl
  | .cdata content => rfl
  | .other => rfl

/-- The elements that the events of some items begin are those in them. -/
theorem filterMap_beginning?_eventsOf (around : List Tag) : ∀ items : List Item,
    (eventsOf items).filterMap beginning? = (placedIn around items).filterMap (·.item.tag?)
  | [] => rfl
  | item :: later => by
      rw [eventsOf, placedIn, List.filterMap_append, filterMap_beginning?_events around item,
        filterMap_beginning?_eventsOf around later, ← List.cons_append, List.filterMap_append]

end

namespace TestCase

/-- The messages among the events inside a test case are those of the elements inside. -/
theorem messagesAmong_content (kind : String → Bool) (c : TestCase) :
    messagesAmong kind (eventsOf c.content) = messages kind c.inside := by
  rw [messagesAmong, filterMap_beginning?_eventsOf (c.tag :: c.around), messages, inside]

/-- The text that is heard inside a test case. -/
def heardText (c : TestCase) : List Char := heard false (eventsOf c.content)

/-- The message attribute of the last failure inside a test case. -/
def lastMessage (c : TestCase) : String := (messages isFailure c.inside).getLastD ""

end TestCase

/-! ### Reading, said at once -/

namespace OpenCase

/-- **An open test case behind some events**: the last failure and the last skip among them count, and the text that
is heard is put behind what was heard before. -/
def behind (c : OpenCase) (events : List Event) : OpenCase :=
  { c with
    failure := (messagesAmong isFailure events).getLast?.or c.failure
    skipped := (messagesAmong isSkip events).getLast?.or c.skipped
    failureText := c.failureText ++ String.ofList (heard c.inFailure events)
    inFailure := events.foldl failingBehind c.inFailure }

theorem behind_nil (c : OpenCase) : c.behind [] = c := by
  simp [behind, messagesAmong, heard]

/-- Events are read one after the other. -/
theorem behind_append (c : OpenCase) (events later : List Event) :
    c.behind (events ++ later) = (c.behind events).behind later := by
  simp [behind, messagesAmong_append, heard_append, List.getLast?_append, Option.or_assoc, String.append_assoc]

/-- An element inside an open test case counts by its name and its message. -/
theorem element_eq_behind (c : OpenCase) {e : Event} {tag : Tag} (h : beginning? e = some tag) (hasContent : Bool)
    (hopen : failingBehind c.inFailure e = (c.inFailure || (hasContent && isFailure tag.localName))) :
    c.element tag hasContent = c.behind [e] := by
  -- the event counts as an element without content does in a tree, wherever it stands
  have said (kind : String → Bool) : messagesAmong kind [e] = messages kind [⟨[], .empty tag⟩] := by
    simp [messagesAmong, messages, h, tag?]
  have chars : charactersOf e = [] := by cases e <;> first | rfl | cases h
  have text : heard c.inFailure [e] = textInFailures [⟨[], .empty tag⟩] := by
    rw [textInFailures_eq_nil rfl]
    simp [heard, chars]
  rw [element_eq_after c [] (.empty tag) rfl, after, behind, said, said, text, List.foldl_cons, List.foldl_nil, hopen]

/-- What is no element has no message. -/
theorem behind_of_no_element (c : OpenCase) {e : Event} (h : beginning? e = none) :
    c.behind [e] =
      { c with
        failureText := c.failureText ++ String.ofList (if c.inFailure then charactersOf e else [])
        inFailure := failingBehind c.inFailure e } := by
  simp [behind, messagesAmong, heard, h]

/-- Characters inside an open test case count in an open failure. -/
theorem characters_eq_behind (c : OpenCase) {e : Event} (h : beginning? e = none)
    (hsame : failingBehind c.inFailure e = c.inFailure) : c.characters (charactersOf e) = c.behind [e] := by
  rw [behind_of_no_element c h, hsame, characters]
  split
  · rfl
  · rw [String.ofList_nil, String.append_empty]

/-- The effect of one event. -/
theorem read_eq_behind (c : OpenCase) (e : Event) : c.read e = c.behind [e] := by
  cases e with
  | opened tag => exact c.element_eq_behind rfl true rfl
  | empty tag => exact c.element_eq_behind rfl false (by simp [failingBehind])
  | closed name =>
      rw [behind_of_no_element c rfl, read]
      by_cases hf : isFailure (String.ofList (localPart name)) = true <;> simp [failingBehind, charactersOf, hf]
  | text raw => exact c.characters_eq_behind (e := .text raw) rfl rfl
  | cdata content => exact c.characters_eq_behind (e := .cdata content) rfl rfl
  | other =>
      rw [behind_of_no_element c rfl, read]
      simp [failingBehind, charactersOf]

/-- **The effect of several events**, said at once. -/
theorem readAll_eq_behind (c : OpenCase) (events : List Event) : c.readAll events = c.behind events := by
  induction events generalizing c with
  | nil => exact c.behind_nil.symm
  | cons e rest ih =>
      rw [readAll, List.foldl_cons, ← readAll, ih, read_eq_behind, ← behind_append, List.singleton_append]

end OpenCase

/-! ### Messages -/

/-- Whether a text is nothing but white space. -/
def SaysNothing (s : String) : Prop := ∀ c ∈ s.toList, Blank.isBlank c = true

instance (s : String) : Decidable (SaysNothing s) :=
  decidable_of_iff (s.toList.all Blank.isBlank = true) List.all_eq_true

/-- A text of which trimming leaves something says something. -/
theorem isSome_nonempty?_trim_iff (s : String) : (OpenCase.nonempty? (Blank.trim s)).isSome ↔ ¬ SaysNothing s := by
  have nothing : Blank.trim s = "" ↔ SaysNothing s := by
    rw [Blank.trim, ← String.toList_eq_nil_iff, String.toList_ofList, trim_eq_nil_iff, SaysNothing]
  rw [OpenCase.nonempty?_eq, ← nothing]
  by_cases h : Blank.trim s = "" <;> simp [h]

theorem eq_of_mem_nonempty? {s message : String} (h : message ∈ OpenCase.nonempty? s) : message = s := by
  rw [OpenCase.nonempty?_eq, Option.mem_def, Option.ite_none_left_eq_some] at h
  exact (Option.some.inj h.2).symm

namespace TestCase

/-- A test case with a failure inside fails, and its message is that of the last failure or, where this is empty, what
is heard. -/
theorem reading_of_failure (c : TestCase) (h : messages isFailure c.inside ≠ []) :
    c.reading.status = .fail ∧
      c.reading.message = OpenCase.nonempty?
        (Blank.trim (if c.lastMessage = "" then String.ofList c.heardText else c.lastMessage)) := by
  have last : (messages isFailure c.inside).getLast? = some c.lastMessage := by
    rw [lastMessage, List.getLastD_eq_getLast?]
    cases hlast : (messages isFailure c.inside).getLast? with
    | none => exact absurd (List.getLast?_eq_none_iff.1 hlast) h
    | some message => rfl
  have failure : (c.opened.readAll (eventsOf c.content)).failure = some c.lastMessage := by
    rw [OpenCase.readAll_eq_behind, OpenCase.behind, c.messagesAmong_content isFailure, last]
    rfl
  have text : (c.opened.readAll (eventsOf c.content)).failureText = String.ofList c.heardText := by
    rw [OpenCase.readAll_eq_behind]
    exact String.empty_append
  rw [reading, OpenCase.record]
  refine ⟨?_, ?_⟩
  · simp [OpenCase.status, failure]
  · simp [OpenCase.rawMessage, failure, text, String.isEmpty_iff]

/-- Where no failure stands in another, the text that is heard is the text inside the failures. -/
theorem heardText_eq (c : TestCase) (hcase : isCase c.tag = true) (h : ∀ p ∈ c.inside, FailureApart p) :
    c.heardText = textInFailures c.inside := by
  have text := congrArg OpenCase.failureText (c.opened.readAll_eventsOf (c.inFailure?_opened hcase) c.content h)
  rw [OpenCase.readAll_eq_behind] at text
  exact String.ofList_injective ((String.append_right_inj _).1 text)

end TestCase

/-- **When the record of a failed test case has a message.** A report that can be read is a draft. Say that no test
case in it stands in another; then every test case is recorded under its key. Take one with a failure inside: it fails,
and its record has a message exactly if the message of the last failure says something, or is empty while what is heard
says something. The message is the one of the two, without white space at its ends. What is heard is the text inside
the failures, if none of them stands in another. -/
theorem isSome_message_iff {document : String} {results : Results} (h : parse document = .ok results) :
    ∃ d, Draft.ofDocument? document = some d ∧
      ((∀ p ∈ d.placed [], CaseApart p) →
        results = Results.empty.insertAll (readings (d.placed [])) ∧
        ∀ c ∈ testCases (d.placed []), messages isFailure c.inside ≠ [] →
          c.reading.status = .fail ∧
          (c.reading.message.isSome ↔
            ¬ SaysNothing c.lastMessage ∨ c.lastMessage = "" ∧ ¬ SaysNothing (String.ofList c.heardText)) ∧
          (∀ message ∈ c.reading.message,
            message = Blank.trim (if c.lastMessage = "" then String.ofList c.heardText else c.lastMessage)) ∧
          ((∀ p ∈ c.inside, FailureApart p) → c.heardText = textInFailures c.inside)) := by
  obtain ⟨d, hd, hresults⟩ := results_of_parse h
  refine ⟨d, hd, fun apart => ⟨hresults apart, ?_⟩⟩
  intro c hc hfailure
  obtain ⟨hstatus, hmessage⟩ := c.reading_of_failure hfailure
  refine ⟨hstatus, ?_, ?_, c.heardText_eq (isCase_of_mem_testCases hc)⟩
  · -- an empty message says nothing, so the two cases of the statement exclude each other
    rw [hmessage, isSome_nonempty?_trim_iff]
    have silent : SaysNothing "" := by simp [SaysNothing]
    by_cases hempty : c.lastMessage = "" <;> simp [hempty, silent]
  · intro message hm
    rw [hmessage] at hm
    exact eq_of_mem_nonempty? hm

/-! ### A message that is kept and one that is lost -/

/-- The draft that is one suite with one test case. -/
def draftOf (content : List Item) : Draft :=
  .closed [.element (tagOf "testsuite" " name=\"p\"") [.element (tagOf "testcase" " name=\"T\"") content]]

theorem sound_draftOf {content : List Item}
    (h : ∀ p ∈ (draftOf content).placed [], Apart p ∧ Legible p) : Draft.Sound (draftOf content) :=
  ⟨⟨_, rfl, .inr (by decide)⟩, by simpa [draftOf, Draft.unclosedElements] using h⟩

/-- A report on a test case with two failures and a skip inside. -/
def twoFailures : String :=
  "<testsuite name=\"p\"><testcase name=\"T\"><failure message=\"m\"/><skipped/><error>boom</error></testcase>" ++
    "</testsuite>"

/-- What stands inside the test case. -/
def twoFailuresContent : List Item :=
  [.empty (tagOf "failure" " message=\"m\""), .empty (tagOf "skipped" ""),
    .element (tagOf "error" "") [.text "boom".toList]]

/-- The message of the first failure does not count, and the text in the second does. -/
theorem isSome_message_iff_twoFailures :
    ∃ d c results, parse twoFailures = .ok results ∧ Draft.ofDocument? twoFailures = some d ∧
      testCases (d.placed []) = [c] ∧ results.get? c.key = some c.reading ∧ c.reading.status = .fail ∧
      c.reading.message = some "boom" := by
  have read : (Reading.ofString twoFailures).events = (draftOf twoFailuresContent).events ∧
      (Reading.ofString twoFailures).fault = none := by
    decide +kernel
  have hparse := parse_of_draft read.1 (sound_draftOf (by decide +kernel))
  rw [read.2] at hparse
  obtain ⟨d, hd, hcases⟩ := isSome_message_iff hparse
  obtain rfl := Option.some.inj (hd.symm.trans (Draft.ofDocument?_of_events read))
  obtain ⟨-, hmessage⟩ := hcases (by decide +kernel)
  obtain ⟨hstatus, hsome, hvalue, -⟩ := hmessage _ (List.mem_singleton_self _) (by decide +kernel)
  obtain ⟨message, hm⟩ := Option.isSome_iff_exists.1 (hsome.2 (.inr (by decide +kernel)))
  have boom : message = "boom" := (hvalue message hm).trans (by decide +kernel)
  exact ⟨_, _, _, hparse, hd, rfl, by decide +kernel, hstatus, hm.trans (congrArg some boom)⟩

/-- A report on a test case with a failure that has a message of one blank and a text. -/
def blankMessage : String :=
  "<testsuite name=\"p\"><testcase name=\"T\"><failure message=\" \">boom</failure></testcase></testsuite>"

/-- What stands inside the test case. -/
def blankMessageContent : List Item := [.element (tagOf "failure" " message=\" \"") [.text "boom".toList]]

/-- **A message that is lost.** There is a report that can be read with one test case and one failure in it, whose text
is not blank; the test case fails, and its record has no message. -/
theorem exists_message_lost :
    ∃ document d c results, Draft.ofDocument? document = some d ∧ testCases (d.placed []) = [c] ∧
      messages isFailure c.inside = [" "] ∧ textInFailures c.inside = "boom".toList ∧
      parse document = .ok results ∧ results.get? c.key = some ⟨.fail, none, none⟩ := by
  have read : (Reading.ofString blankMessage).events = (draftOf blankMessageContent).events ∧
      (Reading.ofString blankMessage).fault = none := by
    decide +kernel
  have hparse := parse_of_draft read.1 (sound_draftOf (by decide +kernel))
  rw [read.2] at hparse
  exact ⟨blankMessage, _, _, _, Draft.ofDocument?_of_events read, rfl, by decide +kernel, by decide +kernel, hparse,
    by decide +kernel⟩

end SuiteReport.JUnit
