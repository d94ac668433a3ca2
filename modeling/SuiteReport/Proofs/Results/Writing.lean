import SuiteReport.Proofs.Markup.Writing
import SuiteReport.Proofs.Results.Unfinished
/-!
# Reports that are written

A report is written from test cases in suites: the package, the name and the time of a case as attributes of an element
`testcase`, and how it ended as an element inside. Reading the report gives one record for each case, in the order in
which they are written, whatever the texts are, however the suites are nested, and whichever of the elements without
content are written with an empty-element tag.

## Main definitions

* `Written.Case`, `Written.Group`, `Written.Report`: what a report is written from.
* `Written.Report.write`: the report as it is written.
* `Written.Case.key`, `Written.Case.record`: what is recorded of a case, and `Written.Report.cases`, the cases in the
  order in which they are written.

## Main results

* `legible_of_mem_items`: all that is written can be read.
* `Written.parse_write`: reading a report that was written.
-/

namespace SuiteReport.JUnit

open Markup Markup.Item

/-! ### What is written can be read -/

/-- The value of an attribute of a tag that is written, which is empty if the tag does not have it. -/
theorem attributeValue_tag (head : Head) (name : String) :
    attributeValue head.tag name = .ok ((head.attribute? name).getD "") := by
  rw [attributeValue, Head.tag, Attribute.find?_attributesText]

theorem valueOf_tag (head : Head) (name : String) : valueOf head.tag name = (head.attribute? name).getD "" := by
  rw [valueOf, attributeValue_tag]
  rfl

theorem readable_tag (head : Head) (name : String) : readable head.tag name = true := by
  rw [readable, attributeValue_tag]
  rfl

/-- A text that is written is by itself in its place. -/
theorem placedIn_textItems (around : List Tag) (text : String) :
    placedIn around (textItems text) = (textItems text).map (⟨around, ·⟩) := by
  rw [textItems]
  split <;> rfl

/-- In content come the text before the first markup, the markup with all inside, and what follows. -/
theorem placedIn_next (around : List Tag) (text : String) (node : Node) (later : Content) :
    placedIn around (Content.next text node later).items = placedIn around (textItems text) ++
      ((⟨around, node.item⟩ :: placedInside around node.item) ++ placedIn around later.items) := by
  rw [Content.items, placedIn_append, placedIn, List.cons_append]

/-- A text that is written has no tag, and its references can be expanded. -/
theorem of_mem_textItems {text : String} {item : Item} (h : item ∈ textItems text) :
    item.tag? = none ∧ item.expands = true := by
  rw [textItems] at h
  split at h
  · cases h
  · obtain rfl := List.mem_singleton.1 h
    exact ⟨rfl, by rw [expands, expand?_escape]; rfl⟩

/-- The characters of a text that is written, without the white space at its ends. -/
theorem flatMap_characters_textItems (text : String) :
    (textItems text).flatMap characters = trim isSpace text.toList := by
  rw [textItems]
  split
  · rename_i h
    rw [h]
    rfl
  · rename_i c s h
    rw [h, List.flatMap_singleton, characters, expand?_escape]
    rfl

theorem legible_of_mem_textItems (around : List Tag) (text : String) :
    ∀ p ∈ placedIn around (textItems text), Legible p := by
  intro p hp
  rw [placedIn_textItems] at hp
  obtain ⟨item, hitem, rfl⟩ := List.mem_map.1 hp
  obtain ⟨htag, hexpands⟩ := of_mem_textItems hitem
  exact ⟨fun tag h => by simp [htag] at h, fun _ => hexpands⟩

mutual

/-- All in markup that is written can be read. -/
theorem legible_of_mem_item (around : List Tag) : ∀ node : Node,
    ∀ p ∈ ⟨around, node.item⟩ :: placedInside around node.item, Legible p
  | .element head content => by
      intro p hp
      rcases List.mem_cons.1 hp with rfl | hp
      · exact ⟨fun tag htag name _ => Option.some.inj htag ▸ readable_tag head name, fun _ => rfl⟩
      · exact legible_of_mem_items (head.tag :: around) content p hp
  | .empty head => by
      intro p hp
      obtain rfl := List.mem_singleton.1 hp
      exact ⟨fun tag htag name _ => Option.some.inj htag ▸ readable_tag head name, fun _ => rfl⟩
  | .comment => by
      intro p hp
      obtain rfl := List.mem_singleton.1 hp
      exact ⟨fun tag htag => (by cases htag), fun _ => rfl⟩

/-- All in content that is written can be read. -/
theorem legible_of_mem_items (around : List Tag) : ∀ content : Content,
    ∀ p ∈ placedIn around content.items, Legible p
  | .last last => legible_of_mem_textItems around last
  | .next first node later => by
      rw [placedIn_next, List.forall_mem_append, List.forall_mem_append]
      exact ⟨legible_of_mem_textItems around first, legible_of_mem_item around node, legible_of_mem_items around later⟩

end

/-! ### Elements that are apart -/

theorem apart_of_tag? {p : Placed} {tag : Tag} (h : p.item.tag? = some tag)
    (hcase : isCase tag = true → ∀ outer ∈ p.around, isCase outer = false)
    (hfailure : isFailure tag.localName = true → ∀ outer ∈ p.around, isFailure outer.localName = false) :
    Apart p := by
  intro other hmem
  obtain rfl : tag = other := Option.some.inj (h.symm.trans hmem)
  exact ⟨hcase, hfailure⟩

/-- What is no element is apart from everything. -/
theorem apart_of_tag?_eq_none {p : Placed} (h : p.item.tag? = none) : Apart p := by
  intro tag hmem
  rw [h] at hmem
  cases hmem

namespace Written

/-! ### Reports as they are meant -/

/-- The attribute that holds the package of a case. -/
def packageKey : Name := ⟨"classname", by decide, by decide⟩

/-- The attribute that holds the name of a case or of a suite. -/
def nameKey : Name := ⟨"name", by decide, by decide⟩

/-- The attribute that holds the time of a case. -/
def timeKey : Name := ⟨"time", by decide, by decide⟩

/-- The attribute that holds the message of a failure or of a skip. -/
def messageKey : Name := ⟨"message", by decide, by decide⟩

/-- The attributes of a test case. -/
def caseValues (package name : String) (time : Option String) : List (Name × String) :=
  (packageKey, package) :: (nameKey, name) :: time.toList.map (Prod.mk timeKey)

/-- How a test case ended. -/
inductive Outcome where
  /-- It passed. -/
  | pass
  /-- It was skipped, for the reason in the message. -/
  | skip (message : String) (selfClosing : Bool)
  /-- It failed, or it could not be carried out if `isError`. The body is made up of texts that are kept apart. -/
  | failure (isError : Bool) (message : String) (body : List String) (selfClosing : Bool)

/-- A test case. -/
structure Case where
  /-- The package, which is written as the class name. -/
  package : String
  /-- There is a package. -/
  package_ne_empty : package ≠ ""
  /-- The machine name of the test. -/
  name : String
  /-- The time, without a unit. -/
  time : Option String
  /-- The attributes in the order in which they are written. -/
  attributes : List (Name × String)
  /-- They are the package, the name and the time. -/
  perm : attributes.Perm (caseValues package name time)
  /-- How the case ended. -/
  outcome : Outcome
  /-- Whether the element is written with an empty-element tag if it has no content. -/
  selfClosing : Bool

/-- A test case, or a suite with what is in it. -/
inductive Group where
  /-- A test case. -/
  | case (c : Case)
  /-- A suite. -/
  | suite (name : Option String) (content : List Group) (selfClosing : Bool)

/-- A report. -/
structure Report where
  /-- Whether the root is a suite, not a list of suites. -/
  isSuite : Bool
  /-- The name of the root. -/
  name : Option String
  /-- What is in the root. -/
  content : List Group
  /-- Whether the root is written with an empty-element tag if it has no content. -/
  selfClosing : Bool

/-! ### What is written -/

/-- A head with at most one attribute. -/
def headOf (name key : Name) (value : Option String) : Head where
  name := name
  attributes := value.toList.map (Prod.mk key)
  nodup := by cases value <;> simp

/-- The name of the element of a suite. -/
def suiteElement : Name := ⟨"testsuite", by decide, by decide⟩

/-- The name of the root: a suite or a list of suites. -/
def rootElement (isSuite : Bool) : Name := if isSuite then suiteElement else ⟨"testsuites", by decide, by decide⟩

/-- The name of the element of a skip. -/
def skipElement : Name := ⟨"skipped", by decide, by decide⟩

/-- The name of the element of a failure. -/
def failureElement (isError : Bool) : Name :=
  if isError then ⟨"error", by decide, by decide⟩ else ⟨"failure", by decide, by decide⟩

/-- The element that says how a test case ended, with nothing beside it. -/
def outcomeContent (name : Name) (message : String) (content : Content) (selfClosing : Bool) : Content :=
  .next "" (.elementOrEmpty (headOf name messageKey (some message)) content selfClosing) (.last "")

/-- The texts, with comments between them. -/
def bodyContent : List String → Content
  | [] => .last ""
  | [last] => .last last
  | first :: second :: later => .next first .comment (bodyContent (second :: later))

namespace Outcome

/-- What is written inside a test case that ended so. -/
def content : Outcome → Content
  | pass => .last ""
  | skip message selfClosing => outcomeContent skipElement message (.last "") selfClosing
  | failure isError message body selfClosing =>
    outcomeContent (failureElement isError) message (bodyContent body) selfClosing

/-- The status of a test case that ended so. -/
def status : Outcome → Status
  | pass => .pass
  | skip .. => .skip
  | failure .. => .fail

/-- The message of a test case that ended so: if it is empty, the texts without the white space at their ends. -/
def message : Outcome → String
  | pass => ""
  | skip message _ => message
  | failure _ message body _ =>
    if message = "" then String.ofList (body.flatMap fun text => trim isSpace text.toList) else message

end Outcome

/-- The attributes of a test case have distinct names. -/
theorem nodup_caseValues (package name : String) (time : Option String) :
    ((caseValues package name time).map (·.1.text)).Nodup := by
  cases time with
  | none => exact (by decide : ["classname", "name"].Nodup)
  | some time => exact (by decide : ["classname", "name", "time"].Nodup)

namespace Case

/-- The head of a test case. -/
def head (c : Case) : Head where
  name := ⟨"testcase", by decide, by decide⟩
  attributes := c.attributes
  nodup := (c.perm.map (·.1.text)).nodup_iff.2 (nodup_caseValues c.package c.name c.time)

/-- A test case as markup. -/
def node (c : Case) : Node := .elementOrEmpty c.head c.outcome.content c.selfClosing

/-- The key of a test case. -/
def key (c : Case) : String := resultKey c.package c.name

/-- What is recorded of a test case. -/
def record (c : Case) : Record where
  status := c.outcome.status
  duration := c.time.bind fun time => if Blank.trim time = "" then none else some (Blank.trim time ++ "s")
  message := if Blank.trim c.outcome.message = "" then none else some (Blank.trim c.outcome.message)

end Case

namespace Group

mutual

/-- A group as markup. -/
def node : Group → Node
  | case c => c.node
  | suite name content selfClosing =>
    .elementOrEmpty (headOf suiteElement nameKey name) (contentOf content) selfClosing

/-- Several groups, one after the other. -/
def contentOf : List Group → Content
  | [] => .last ""
  | group :: later => .next "" group.node (contentOf later)

end

mutual

/-- The test cases of a group in the order in which they are written. -/
def cases : Group → List Case
  | case c => [c]
  | suite _ content _ => casesOf content

/-- The test cases of several groups. -/
def casesOf : List Group → List Case
  | [] => []
  | group :: later => group.cases ++ casesOf later

end

end Group

namespace Report

/-- A report as markup. -/
def node (r : Report) : Node :=
  .elementOrEmpty (headOf (rootElement r.isSuite) nameKey r.name) (Group.contentOf r.content) r.selfClosing

/-- A report as it is written. -/
def write (r : Report) : String := String.ofList r.node.write

/-- The test cases in the order in which they are written. -/
def cases (r : Report) : List Case := Group.casesOf r.content

end Report

/-! ### What is said by what is written -/

theorem attribute?_headOf (name key : Name) (value : Option String) :
    (headOf name key value).attribute? key.text = value := by
  cases value <;> simp [headOf, Head.attribute?]

namespace Case

variable (c : Case)

theorem localName_head : c.head.tag.localName = "testcase" := c.head.localName_tag

theorem isCase_head : isCase c.head.tag = true := by
  rw [isCase, localName_head]
  rfl

/-- The attributes of a test case are found whatever their order is. -/
theorem attribute?_head {key : Name} {value : String} (h : (key, value) ∈ caseValues c.package c.name c.time) :
    c.head.attribute? key.text = some value :=
  Head.attribute?_of_mem (c.perm.mem_iff.2 h)

theorem package_head : valueOf c.head.tag "classname" = c.package := by
  have h : c.head.attribute? packageKey.text = some c.package := c.attribute?_head (by simp [caseValues])
  exact (valueOf_tag _ _).trans (congrArg (Option.getD · "") h)

theorem name_head : valueOf c.head.tag "name" = c.name := by
  have h : c.head.attribute? nameKey.text = some c.name := c.attribute?_head (by simp [caseValues])
  exact (valueOf_tag _ _).trans (congrArg (Option.getD · "") h)

theorem time_head : valueOf c.head.tag "time" = c.time.getD "" := by
  have h : c.head.attribute? timeKey.text = c.time := by
    cases htime : c.time with
    | none =>
        refine Head.attribute?_eq_none fun a ha => ?_
        have ha := c.perm.mem_iff.1 ha
        simp only [caseValues, htime, Option.toList_none, List.map_nil, List.mem_cons, List.not_mem_nil, or_false] at ha
        rcases ha with rfl | rfl
        · exact (by decide : packageKey.text ≠ timeKey.text)
        · exact (by decide : nameKey.text ≠ timeKey.text)
    | some time => exact c.attribute?_head (by simp [caseValues, htime])
  exact (valueOf_tag _ _).trans (congrArg (Option.getD · "") h)

end Case

/-- What stands in the body of a failure has no tags, and its characters are those of the texts without the white space
at their ends. -/
theorem placedIn_bodyContent (around : List Tag) (body : List String) :
    (∀ p ∈ placedIn around (bodyContent body).items, p.item.tag? = none ∧ p.around = around) ∧
      (placedIn around (bodyContent body).items).flatMap (·.item.characters) =
        body.flatMap fun s => trim isSpace s.toList := by
  have htext (s : String) : (∀ p ∈ placedIn around (textItems s), p.item.tag? = none ∧ p.around = around) ∧
      (placedIn around (textItems s)).flatMap (·.item.characters) = trim isSpace s.toList := by
    rw [placedIn_textItems, List.flatMap_map, flatMap_characters_textItems]
    refine ⟨?_, rfl⟩
    intro p hp
    obtain ⟨item, hitem, rfl⟩ := List.mem_map.1 hp
    exact ⟨(of_mem_textItems hitem).1, rfl⟩
  fun_induction bodyContent body with
  | case1 => exact htext ""
  | case2 last => simpa [Content.items] using htext last
  | case3 first second later ih =>
      obtain ⟨htag, hchars⟩ := ih
      rw [placedIn_next, List.forall_mem_append, List.forall_mem_append, List.flatMap_append, List.flatMap_append,
        (htext first).2, hchars, List.flatMap_cons]
      exact ⟨⟨(htext first).1, by simp [Node.item, placedInside, tag?], htag⟩, rfl⟩

/-! ### How a test case ended -/

section OutcomeContent

variable (name : Name) (message : String) (content : Content) (selfClosing : Bool)

/-- The tag of the element that says how a test case ended. -/
def outcomeTag : Tag := (headOf name messageKey (some message)).tag

theorem localName_outcomeTag : (outcomeTag name message).localName = name.text := Head.localName_tag _

theorem message_outcomeTag : valueOf (outcomeTag name message) "message" = message := by
  have hmessage := attribute?_headOf name messageKey (some message)
  have hkey : messageKey.text = "message" := rfl
  rw [hkey] at hmessage
  rw [outcomeTag, valueOf_tag, hmessage, Option.getD_some]

/-- The element comes first, and then what is in it. -/
theorem exists_placedIn_outcomeContent (around : List Tag) :
    ∃ item : Item, item.tag? = some (outcomeTag name message) ∧
      placedIn around (outcomeContent name message content selfClosing).items =
        ⟨around, item⟩ :: placedIn (outcomeTag name message :: around) content.items := by
  have hempty : placedIn around (textItems "") = [] := rfl
  refine ⟨_, Node.tag?_elementOrEmpty _ content selfClosing, ?_⟩
  rw [outcomeContent, placedIn_next, Content.items, hempty, List.nil_append, List.append_nil,
    Node.placedInside_elementOrEmpty, outcomeTag]

variable {content}

/-- The element counts by its name and its message. -/
theorem messages_outcomeContent (kind : String → Bool) {around : List Tag}
    (h : ∀ p ∈ placedIn (outcomeTag name message :: around) content.items, p.item.tag? = none) :
    messages kind (placedIn around (outcomeContent name message content selfClosing).items) =
      if kind name.text = true then [message] else [] := by
  obtain ⟨item, htag, hplaced⟩ := exists_placedIn_outcomeContent name message content selfClosing around
  have hnone := List.filterMap_eq_nil_iff.2 h
  rw [hplaced, messages, List.filterMap_cons, htag, hnone]
  by_cases hkind : kind name.text = true
  · simp [localName_outcomeTag, hkind, message_outcomeTag]
  · simp [localName_outcomeTag, hkind]

/-- What stands in the element of a failure is text inside a failure. -/
theorem textInFailures_outcomeContent {around : List Tag} (hname : isFailure name.text = true)
    (hcase : (inFailure? around).isSome = true)
    (h : ∀ p ∈ placedIn (outcomeTag name message :: around) content.items,
      p.around = outcomeTag name message :: around) :
    textInFailures (placedIn around (outcomeContent name message content selfClosing).items) =
      (placedIn (outcomeTag name message :: around) content.items).flatMap (·.item.characters) := by
  obtain ⟨item, htag, hplaced⟩ := exists_placedIn_outcomeContent name message content selfClosing around
  have hin : inFailure? (outcomeTag name message :: around) = some true := by
    obtain ⟨failing, hfailing⟩ := Option.isSome_iff_exists.1 hcase
    have hnot : isCase (outcomeTag name message) = false := by
      rw [isCase, localName_outcomeTag]
      exact beq_eq_false_iff_ne.2 fun h => by simp [h, isFailure] at hname
    simp [inFailure?, hnot, hfailing, localName_outcomeTag, hname]
  have hall : (placedIn (outcomeTag name message :: around) content.items).filter
      (inFailure? ·.around == some true) = placedIn (outcomeTag name message :: around) content.items :=
    List.filter_eq_self.2 fun p hp => by simp [h p hp, hin]
  rw [hplaced, ← List.singleton_append, textInFailures_append, textInFailures_eq_nil htag, List.nil_append,
    textInFailures, hall]

/-- The element stands in no other failure, and there is no test case in it. -/
theorem apart_outcomeContent {around : List Tag} (hname : name.text ≠ "testcase")
    (houtside : ∀ outer ∈ around, isFailure outer.localName = false)
    (h : ∀ p ∈ placedIn (outcomeTag name message :: around) content.items, p.item.tag? = none) :
    ∀ p ∈ placedIn around (outcomeContent name message content selfClosing).items, Apart p := by
  obtain ⟨item, htag, hplaced⟩ := exists_placedIn_outcomeContent name message content selfClosing around
  have hself : Apart ⟨around, item⟩ := by
    refine apart_of_tag? htag (fun hcase => ?_) fun _ => houtside
    rw [isCase, localName_outcomeTag, beq_iff_eq] at hcase
    exact absurd hcase hname
  rw [hplaced, List.forall_mem_cons]
  exact ⟨hself, fun p hp => apart_of_tag?_eq_none (h p hp)⟩

end OutcomeContent

/-! ### Test cases -/

theorem isFailure_failureElement (isError : Bool) : isFailure (failureElement isError).text = true := by
  cases isError <;> rfl

/-- Nothing stands in an empty text. -/
theorem placedIn_last_empty (around : List Tag) : placedIn around (Content.last "").items = [] := rfl

namespace Outcome

variable (around : List Tag)

/-- The messages of a kind inside a test case that ended so. -/
theorem messages_content (kind : String → Bool) (o : Outcome) :
    messages kind (placedIn around o.content.items) =
      match o with
      | pass => []
      | skip message _ => if kind skipElement.text = true then [message] else []
      | failure isError message _ _ => if kind (failureElement isError).text = true then [message] else [] := by
  cases o with
  | pass => rfl
  | skip message selfClosing =>
      exact messages_outcomeContent skipElement message selfClosing kind (by simp [placedIn_last_empty])
  | failure isError message body selfClosing =>
      exact messages_outcomeContent (failureElement isError) message selfClosing kind
        fun p hp => ((placedIn_bodyContent _ body).1 p hp).1

/-- The text inside the failures of a test case that failed. -/
theorem textInFailures_content (hcase : (inFailure? around).isSome = true) (isError : Bool) (message : String)
    (body : List String) (selfClosing : Bool) :
    textInFailures (placedIn around (failure isError message body selfClosing).content.items) =
      body.flatMap fun s => trim isSpace s.toList := by
  obtain ⟨hplaced, hchars⟩ := placedIn_bodyContent (outcomeTag (failureElement isError) message :: around) body
  rw [content, textInFailures_outcomeContent _ _ _ (isFailure_failureElement isError) hcase
    fun p hp => (hplaced p hp).2, hchars]

/-- What is said inside a test case is apart from it. -/
theorem apart_content (houtside : ∀ outer ∈ around, isFailure outer.localName = false) (o : Outcome) :
    ∀ p ∈ placedIn around o.content.items, Apart p := by
  cases o with
  | pass => exact List.forall_mem_nil _
  | skip message selfClosing =>
      exact apart_outcomeContent skipElement message selfClosing (by decide) houtside (by simp [placedIn_last_empty])
  | failure isError message body selfClosing =>
      have hname : (failureElement isError).text ≠ "testcase" := by cases isError <;> decide
      exact apart_outcomeContent _ message selfClosing hname houtside
        fun p hp => ((placedIn_bodyContent _ body).1 p hp).1

variable (tag : Tag)

/-- The status of a test case says how it ended. -/
theorem status_eq (o : Outcome) : (⟨around, tag, o.content.items⟩ : TestCase).status = o.status := by
  rw [TestCase.status, TestCase.inside, messages_content, messages_content]
  cases o with
  | pass => rfl
  | skip message selfClosing => rfl
  | failure isError message body selfClosing => simp [isFailure_failureElement, status]

/-- The message of a test case before trimming. -/
theorem rawMessage_eq (hcase : isCase tag = true) (o : Outcome) :
    (⟨around, tag, o.content.items⟩ : TestCase).rawMessage = o.message := by
  rw [TestCase.rawMessage, TestCase.inside, messages_content, messages_content]
  cases o with
  | pass => rfl
  | skip message selfClosing => rfl
  | failure isError message body selfClosing =>
      have hopen : (inFailure? (tag :: around)).isSome = true := by simp [inFailure?, hcase]
      have htext := textInFailures_content (tag :: around) hopen isError message body selfClosing
      simp only [isFailure_failureElement, if_true, List.getLast?_singleton, htext]
      rfl

end Outcome

namespace Case

variable (c : Case)

/-- The element of a test case in its place. -/
def placed (around : List Tag) : TestCase := ⟨around, c.head.tag, c.outcome.content.items⟩

theorem key_placed (around : List Tag) : (c.placed around).key = c.key := by
  have hpackage : (c.placed around).package = c.package := by
    simp [placed, TestCase.package, package_head, c.package_ne_empty]
  rw [TestCase.key, hpackage, placed, name_head, key]

/-- **The record of a test case** that is written is what it is meant to be. -/
theorem record_placed (around : List Tag) : (c.placed around).record = c.record := by
  have hstatus : (c.placed around).status = c.outcome.status := c.outcome.status_eq around c.head.tag
  have hmessage : (c.placed around).rawMessage = c.outcome.message := c.outcome.rawMessage_eq around _ c.isCase_head
  have htime : valueOf (c.placed around).tag "time" = c.time.getD "" := c.time_head
  rw [TestCase.record, record, hstatus, hmessage, htime]
  cases c.time <;> rfl

end Case

/-! ### Suites -/

/-- Elements in which test cases and suites may stand: there are no test cases and no failures among them. -/
def Outside (around : List Tag) : Prop := ∀ outer ∈ around, isCase outer = false ∧ isFailure outer.localName = false

/-- The items are apart, and the records among them are those of the given test cases. -/
def Holds (placed : List Placed) (cases : List Case) : Prop :=
  (∀ p ∈ placed, Apart p) ∧ records placed = cases.map fun c => (c.key, c.record)

theorem Holds.append {placed later : List Placed} {cases others : List Case} (h : Holds placed cases)
    (hlater : Holds later others) : Holds (placed ++ later) (cases ++ others) :=
  ⟨List.forall_mem_append.2 ⟨h.1, hlater.1⟩, by rw [records_append, h.2, hlater.2, List.map_append]⟩

/-- A test case holds itself. -/
theorem Case.holds (c : Case) {around : List Tag} (hout : Outside around) :
    Holds (⟨around, c.node.item⟩ :: placedInside around c.node.item) [c] := by
  have htag : c.node.item.tag? = some c.head.tag := Node.tag?_elementOrEmpty _ _ _
  have hcontent : c.node.item.content = c.outcome.content.items := Node.content_elementOrEmpty _ _ _
  have hfailure : isFailure c.head.tag.localName = false := by
    rw [localName_head]
    rfl
  have hinside : ∀ p ∈ placedIn (c.head.tag :: around) c.outcome.content.items, Apart p :=
    Outcome.apart_content _ (List.forall_mem_cons.2 ⟨hfailure, fun outer houter => (hout outer houter).2⟩) c.outcome
  have hapart : Apart ⟨around, c.node.item⟩ :=
    apart_of_tag? htag (fun _ outer houter => (hout outer houter).1) (by simp [hfailure])
  rw [node, Node.placedInside_elementOrEmpty, ← node]
  constructor
  · exact List.forall_mem_cons.2 ⟨hapart, hinside⟩
  · have hself : records [⟨around, c.node.item⟩] = [((c.placed around).key, (c.placed around).record)] :=
      records_case (c.placed around) _ htag hcontent c.isCase_head
    rw [← List.singleton_append, records_append, hself, records_eq_nil List.mem_cons_self c.isCase_head hinside,
      key_placed, record_placed]
    rfl

section Suites

variable {name : Name} (hname : name.text = "testsuites" ∨ name.text = "testsuite") (value : Option String)

include hname

/-- A suite, or a list of suites, is neither a test case nor a failure. -/
theorem plain_suite :
    isCase (headOf name nameKey value).tag = false ∧ isFailure (headOf name nameKey value).tag.localName = false := by
  have hlocal : (headOf name nameKey value).tag.localName = name.text := Head.localName_tag _
  rw [isCase, hlocal]
  rcases hname with hname | hname <;> rw [hname] <;> exact ⟨rfl, rfl⟩

/-- Test cases and suites may stand in a suite that may stand there. -/
theorem Outside.suite {around : List Tag} (hout : Outside around) :
    Outside ((headOf name nameKey value).tag :: around) :=
  List.forall_mem_cons.2 ⟨plain_suite hname value, hout⟩

/-- A suite holds the test cases inside. -/
theorem holds_suite {content : Content} (selfClosing : Bool) {around : List Tag} {cases : List Case}
    (h : Holds (placedIn ((headOf name nameKey value).tag :: around) content.items) cases) :
    let node := Node.elementOrEmpty (headOf name nameKey value) content selfClosing
    Holds (⟨around, node.item⟩ :: placedInside around node.item) cases := by
  intro node
  obtain ⟨hcase, hfailure⟩ := plain_suite hname value
  have htag : node.item.tag? = some (headOf name nameKey value).tag := Node.tag?_elementOrEmpty _ _ _
  have hself : Holds [⟨around, node.item⟩] [] := by
    constructor
    · exact List.forall_mem_singleton.2 (apart_of_tag? htag (by simp [hcase]) (by simp [hfailure]))
    · exact records_singleton fun tag hmem => Option.some.inj (htag.symm.trans hmem) ▸ hcase
  rw [Node.placedInside_elementOrEmpty]
  exact hself.append h

end Suites

namespace Group

mutual

/-- A group holds its test cases. -/
theorem holds {around : List Tag} (hout : Outside around) : ∀ group : Group,
    Holds (⟨around, group.node.item⟩ :: placedInside around group.node.item) group.cases
  | case c => c.holds hout
  | suite name content selfClosing =>
      holds_suite (.inr rfl) name selfClosing (holds_contentOf (hout.suite (.inr rfl) name) content)

/-- Several groups hold their test cases, in the order in which they are written. -/
theorem holds_contentOf {around : List Tag} (hout : Outside around) : ∀ groups : List Group,
    Holds (placedIn around (contentOf groups).items) (casesOf groups)
  | [] => ⟨List.forall_mem_nil _, rfl⟩
  | group :: later => by
      rw [contentOf, placedIn_next, casesOf]
      exact (holds hout group).append (holds_contentOf hout later)

end

end Group

/-! ### Reports -/

namespace Report

variable (r : Report)

/-- The root is a suite or a list of suites. -/
theorem text_rootElement (isSuite : Bool) :
    (rootElement isSuite).text = "testsuites" ∨ (rootElement isSuite).text = "testsuite" := by
  cases isSuite
  · exact .inl rfl
  · exact .inr rfl

/-- A report holds its test cases. -/
theorem holds : Holds (placedIn [] [r.node.item]) r.cases := by
  have hroot := text_rootElement r.isSuite
  have hout : Outside [] := List.forall_mem_nil _
  have hcontent := Group.holds_contentOf (hout.suite hroot r.name) r.content
  rw [placedIn, placedIn, List.append_nil]
  exact holds_suite hroot r.name r.selfClosing hcontent

/-- The first tag of a report is that of its root. -/
theorem firstTag?_events : firstTag? r.node.item.events = some (headOf (rootElement r.isSuite) nameKey r.name).tag := by
  have htag : r.node.item.tag? = some (headOf (rootElement r.isSuite) nameKey r.name).tag :=
    Node.tag?_elementOrEmpty _ _ _
  cases hitem : r.node.item with
  | element tag content => rw [hitem] at htag; exact htag
  | empty tag => rw [hitem] at htag; exact htag
  | _ => rw [hitem] at htag; cases htag

/-- A report that is written can be read. -/
theorem sound : Draft.Sound (.closed [r.node.item]) where
  root := by
    refine ⟨(headOf (rootElement r.isSuite) nameKey r.name).tag, ?_, ?_⟩
    · rw [Draft.events, eventsOf, eventsOf, List.append_nil, firstTag?_events]
    · rw [Head.localName_tag]
      exact text_rootElement r.isSuite
  items := by
    have hlegible : ∀ p ∈ placedIn [] [r.node.item], Legible p := by
      rw [placedIn, placedIn, List.append_nil]
      exact legible_of_mem_item [] r.node
    rw [Draft.placed, Draft.unclosedElements, List.append_nil]
    exact fun p hp => ⟨r.holds.1 p hp, hlegible p hp⟩

end Report

/-- **Reading a report that was written.** Whatever the texts are, however the suites are nested, and whichever
elements without content are written with an empty-element tag: the results are the records of the test cases under
their keys, recorded in the order in which the cases are written. -/
theorem parse_write (r : Report) :
    parse r.write = .ok (r.cases.foldl (fun results c => results.insert c.key c.record) Results.empty) := by
  have hread := Item.ofDocument?_eq_some_iff.1 (Node.ofDocument?_write r.node)
  have hevents : (Reading.ofString r.write).events = (Draft.closed [r.node.item]).events := by
    rw [Report.write, hread, Draft.events]
  have hfault : (Reading.ofString r.write).fault = none := by
    rw [Report.write, hread]
  have hrecords : records ((Draft.closed [r.node.item]).placed []) = r.cases.map fun c => (c.key, c.record) := r.holds.2
  rw [parse_of_draft hevents r.sound, hfault, hrecords, Results.insertAll, List.foldl_map]

/-- A test case that failed, in a list of suites with an empty suite. -/
example : Report.write ⟨false, none, [.suite (some "p<q>") [] true,
      .case ⟨"p", by decide, "T", none, [(nameKey, "T"), (packageKey, "p")], .swap _ _ _,
        .failure false "" ["a & b", " c"] false, true⟩], false⟩ =
    "<testsuites><testsuite name=\"p&lt;q&gt;\"/><testcase name=\"T\" classname=\"p\">" ++
      "<failure message=\"\">a &amp; b<!----> c</failure></testcase></testsuites>" := by
  decide +kernel

end Written

end SuiteReport.JUnit
