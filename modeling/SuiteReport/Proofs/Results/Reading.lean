import SuiteReport.Proofs.Results.Record
import SuiteReport.Proofs.Results.TestCase
/-!
# Reading a report event by event

The events of a report are read one after the other, and what is known in between is a list of suite names and at
most one open test case. In a report that can be read as a tree this is enough: while the items inside some
elements are read, the list holds the names of the suites among these elements, and a test case is open exactly if
one of them is a test case. So reading the events of some items adds what the tree says about them and leaves the
rest as it was.

## Main definitions

* `State.At`: what is known matches the elements around the next item.
* `State.after`: what is known after some items.

## Main results

* `run_eventsOf`: reading the events of some items adds what the tree says about them.
* `parse_eq_lastRecord?`: the results of a report are the records of its last test cases.
-/

namespace SuiteReport.JUnit

open Markup Markup.Item

/-- The keys of the test cases among some items with their records. -/
def records (placed : List Placed) : List (String × Record) :=
  (testCases placed).map fun c => (c.key, c.record)

theorem records_append (placed later : List Placed) :
    records (placed ++ later) = records placed ++ records later := by
  rw [records, testCases_append, List.map_append, records, records]

/-- An element that is no test case adds no record. -/
theorem records_singleton {p : Placed} (h : ∀ tag ∈ p.item.tag?, isCase tag = false) : records [p] = [] := by
  rw [records, testCases_eq_nil (List.forall_mem_singleton.2 h), List.map_nil]

/-- A test case adds its record. -/
theorem records_case (c : TestCase) (item : Item) (htag : item.tag? = some c.tag)
    (hcontent : item.content = c.content) (hcase : isCase c.tag = true) : records [⟨c.around, item⟩] = [(c.key, c.record)] := by
  rw [records, testCases_eq_singleton c item htag hcontent hcase, List.map_singleton]

/-- Inside a test case there is no other. -/
theorem records_eq_nil {around : List Tag} {items : List Item} {outer : Tag} (houter : outer ∈ around)
    (hcase : isCase outer = true) (h : ∀ p ∈ placedIn around items, Apart p) :
    records (placedIn around items) = [] := by
  rw [records, testCases_eq_nil ?_, List.map_nil]
  intro p hp tag htag
  by_contra hne
  have := (h p hp tag htag).1 (by simpa using hne) outer (mem_around_of_mem_placedIn houter items hp)
  simp [hcase] at this

namespace State

/-- The effect of several events, one after the other. -/
def run (s : State) (events : List Event) : Except ReportError State := events.foldlM step s

theorem run_cons {s t : State} {e : Event} (h : s.step e = .ok t) (rest : List Event) :
    s.run (e :: rest) = t.run rest := by
  rw [run, List.foldlM_cons, h]
  rfl

theorem run_singleton {s t : State} {e : Event} (h : s.step e = .ok t) : s.run [e] = .ok t :=
  run_cons h []

theorem run_append {s t : State} {events : List Event} (h : s.run events = .ok t) (rest : List Event) :
    s.run (events ++ rest) = t.run rest := by
  rw [run, List.foldlM_append]
  rw [run] at h
  rw [h]
  rfl

/-- **What is known matches the elements around the next item**: the suites among them are open, and if there is a
test case among them, it is open and it is known whether the item stands in a failure of it. -/
structure At (s : State) (around : List Tag) : Prop where
  /-- The root has been seen. -/
  rootSeen : s.rootSeen = true
  /-- The suites around the item are open. -/
  suites : s.suites = suiteNames around
  /-- The innermost test case around the item is open, and so is its failure around the item. -/
  openCase : s.openCase.map OpenCase.inFailure = inFailure? around

/-- What is known after some items: the open test case goes on with them, and the test cases among them are
recorded. -/
def after (s : State) (placed : List Placed) : State :=
  { s with
    openCase := s.openCase.map (·.after placed)
    results := s.results.insertAll (records placed) }

/-- What is known once the element of a failure is open too, if `failing`. -/
def entered (s : State) (failing : Bool) : State :=
  { s with openCase := s.openCase.map fun c => { c with inFailure := c.inFailure || failing } }

/-- What is known behind the start tag of an element that is no test case, when `s` is known once the element
itself counts. -/
def within (s : State) (tag : Tag) : State :=
  { s.entered (isFailure tag.localName) with
    suites := if isSuite tag then valueOf tag "name" :: s.suites else s.suites }

@[simp]
theorem entered_false (s : State) : s.entered false = s := by
  simp [entered]

/-- No failure is open outside all test cases. -/
theorem entered_of_openCase {s : State} (h : s.openCase = none) (failing : Bool) : s.entered failing = s := by
  rw [entered, h, Option.map_none, ← h]

/-- Items that the open test case does not count and that hold no test case change nothing. -/
theorem after_eq_self {s : State} {placed : List Placed} (hopen : ∀ c ∈ s.openCase, c.after placed = c)
    (hrecords : records placed = []) : s.after placed = s := by
  have hcase : s.openCase.map (·.after placed) = s.openCase := by
    cases h : s.openCase with
    | none => rfl
    | some c => exact congrArg some (hopen c h)
  rw [after, hcase, hrecords, Results.insertAll_nil]

/-- Items are read one after the other. -/
theorem after_append (s : State) (placed later : List Placed) :
    s.after (placed ++ later) = (s.after placed).after later := by
  cases h : s.openCase <;> simp [after, h, OpenCase.after_append, records_append, Results.insertAll_append]

/-- The items inside an element do not depend on what the element leaves open. -/
theorem after_within (s : State) (tag : Tag) (placed : List Placed) :
    (s.within tag).after placed = (s.after placed).within tag := by
  cases h : s.openCase <;> simp [after, within, entered, h, OpenCase.after]

variable {s : State} {around : List Tag} {tag : Tag}

/-- Behind some items the elements around are the same as before. -/
theorem At.after (h : s.At around) (placed : List Placed) : (s.after placed).At around where
  rootSeen := h.rootSeen
  suites := h.suites
  openCase := by
    rw [← h.openCase, State.after, Option.map_map]
    rfl

/-- Behind the start tag of an element, this element is around too. -/
theorem At.within (h : s.At around) (hcase : isCase tag = false) : (s.within tag).At (tag :: around) where
  rootSeen := h.rootSeen
  suites := by
    by_cases hsuite : isSuite tag = true <;> simp [State.within, suiteNames, hsuite, h.suites]
  openCase := by
    rw [inFailure?, hcase, if_neg Bool.false_ne_true, ← h.openCase, State.within, entered, Option.map_map,
      Option.map_map]
    rfl

/-- Outside all test cases none is open. -/
theorem At.openCase_eq_none (h : s.At around) (hout : inFailure? around = none) : s.openCase = none := by
  have := h.openCase
  rwa [hout, Option.map_eq_none_iff] at this

/-- In an open test case it is known whether a failure of it is open. -/
theorem At.inFailure?_eq {c : OpenCase} (h : s.At around) (hopen : s.openCase = some c) :
    inFailure? around = some c.inFailure := by
  rw [← h.openCase, hopen]
  rfl

/-- Outside the failures of the open test case, none is open. -/
theorem At.map_openCase (h : s.At around) (hout : inFailure? around ≠ some true) :
    (s.openCase.map fun c => { c with inFailure := false }) = s.openCase := by
  cases hopen : s.openCase with
  | none => rfl
  | some c =>
      have hclosed : c.inFailure = false := by
        simpa [h.inFailure?_eq hopen] using hout
      rw [Option.map_some, ← hclosed]

/-! ### One event -/

/-- What an element that is no test case says about the open one. -/
theorem outcome_of_readable (hs : s.At around) (item : Item) (htag : item.tag? = some tag)
    (hcase : isCase tag = false) (hasContent : Bool)
    (hread : ∀ name ∈ caseAttributes around tag, readable tag name = true) :
    s.outcome tag hasContent =
      .ok ((s.after [⟨around, item⟩]).entered (hasContent && isFailure tag.localName)) := by
  have hrecords : records [⟨around, item⟩] = [] := records_singleton (by simp [htag, hcase])
  cases hopen : s.openCase with
  | none =>
      rw [after_eq_self (by simp [hopen]) hrecords, entered_of_openCase hopen, outcome, hopen]
      rfl
  | some c =>
      simp only [caseAttributes, hcase, hs.inFailure?_eq hopen, Option.isSome_some, Bool.false_eq_true, if_false,
        Bool.true_and] at hread
      by_cases hf : isFailure tag.localName = true
      · have hk := isSkip_eq_false_of_isFailure hf
        have hmessage := attributeValue_of_readable (hread "message" (by simp [hf]))
        simp [outcome, hopen, hf, hmessage, State.after, entered, OpenCase.after_tag c around _ htag, hk,
          hrecords]
      · by_cases hk : tag.localName = "skipped"
        · have hmessage := attributeValue_of_readable (hread "message" (by simp [isSkip, hk]))
          have hf : isFailure "skipped" = false := rfl
          simp [outcome, hopen, hk, hf, hmessage, State.after, entered, OpenCase.after_tag c around _ htag, isSkip,
            hrecords]
        · have hself : s.after [⟨around, item⟩] = s :=
            after_eq_self (by simp [OpenCase.after_tag _ around _ htag, hf, isSkip, hk]) hrecords
          rw [hself, Bool.eq_false_iff.2 hf, Bool.and_false, entered_false]
          simp only [outcome, hopen, hf, hk, Bool.false_eq_true, if_false]
          rfl

/-- A suite is no outcome of a test case. -/
theorem not_outcome_of_isSuite (h : isSuite tag = true) :
    isFailure tag.localName = false ∧ isSkip tag.localName = false := by
  have hname : tag.localName = "testsuite" := beq_iff_eq.1 h
  rw [hname]
  exact ⟨rfl, rfl⟩

/-- Behind the start tag of an element that is no test case, the element counts and is open. -/
theorem step_opened {content : List Item} (hs : s.At around) (hcase : isCase tag = false)
    (hread : Legible ⟨around, .element tag content⟩) :
    s.step (.opened tag) = .ok ((s.after [⟨around, .element tag content⟩]).within tag) := by
  have hattributes := hread.1 tag rfl
  simp only [attributesOf] at hattributes
  by_cases hsuite : isSuite tag = true
  · have hname : tag.localName = "testsuite" := beq_iff_eq.1 hsuite
    have hvalue := attributeValue_of_readable (hattributes "name" (by simp [hsuite]))
    obtain ⟨hf, hk⟩ := not_outcome_of_isSuite hsuite
    have htag : (Item.element tag content).tag? = some tag := rfl
    have hself : s.after [⟨around, .element tag content⟩] = s :=
      after_eq_self (fun c _ => by simp [OpenCase.after_tag c around _ htag, hf, hk])
        (records_singleton (by simp [tag?, hcase]))
    rw [hself, State.within, hf, entered_false]
    simp [step, hs.rootSeen, hname, hvalue, hsuite]
  · have hout := outcome_of_readable hs (.element tag content) rfl hcase true
      (by simpa [hsuite] using hattributes)
    have hname : tag.localName ≠ "testcase" := beq_eq_false_iff_ne.1 hcase
    have hname' : tag.localName ≠ "testsuite" := beq_eq_false_iff_ne.1 (Bool.eq_false_iff.2 hsuite)
    simp [step, hs.rootSeen, hname, hname', hout, State.within, hsuite]
    rfl

/-- Behind an empty element that is no test case, the element counts. -/
theorem step_empty (hs : s.At around) (hcase : isCase tag = false) (hread : Legible ⟨around, .empty tag⟩) :
    s.step (.empty tag) = .ok (s.after [⟨around, .empty tag⟩]) := by
  have hname : tag.localName ≠ "testcase" := beq_eq_false_iff_ne.1 hcase
  have hout := outcome_of_readable hs (.empty tag) rfl hcase false (hread.1 tag rfl)
  simp only [step, hs.rootSeen, hname, hout]
  simp

/-- Characters count inside a failure of the open test case. -/
theorem text_of_expands {content : Except ReportError (List Char)} (hs : s.At around) (item : Item)
    (htag : item.tag? = none) (hread : inFailure? around = some true → content = .ok item.characters) :
    s.text content = .ok (s.after [⟨around, item⟩]) := by
  have hrecords : records [⟨around, item⟩] = [] := records_singleton (by simp [htag])
  cases hopen : s.openCase with
  | none =>
      rw [after_eq_self (by simp [hopen]) hrecords, text, hopen]
      rfl
  | some c =>
      have hflag := hs.inFailure?_eq hopen
      by_cases hin : c.inFailure = true
      · rw [hin] at hflag
        simp [text, hopen, hin, hread hflag, State.after, OpenCase.after_characters c around _ htag, hflag,
          hrecords]
      · have hself : s.after [⟨around, item⟩] = s :=
          after_eq_self (by simp [OpenCase.after_characters _ around _ htag, hflag, hin]) hrecords
        rw [hself]
        simp only [text, hopen, hin, Bool.false_eq_true, if_false]
        rfl

/-- Behind the end tag of an element that is no test case, everything is as before it was open. -/
theorem step_closed (hs : s.At around) (hcase : isCase tag = false)
    (hapart : isFailure tag.localName = true → inFailure? around ≠ some true) :
    (s.within tag).step (.closed tag.name) = .ok s := by
  suffices h : (s.within tag).close tag.localName = s from congrArg Except.ok h
  have hname : tag.localName ≠ "testcase" := beq_eq_false_iff_ne.1 hcase
  by_cases hsuite : isSuite tag = true
  · have hname' : tag.localName = "testsuite" := beq_iff_eq.1 hsuite
    rw [State.within, (not_outcome_of_isSuite hsuite).1, entered_false, close, if_pos hname', if_pos hsuite,
      List.tail_cons]
  · have hname' : tag.localName ≠ "testsuite" := beq_eq_false_iff_ne.1 (Bool.eq_false_iff.2 hsuite)
    rw [State.within, if_neg hsuite, close, if_neg hname', if_neg hname]
    by_cases hf : isFailure tag.localName = true
    · -- the failure was not open before, so it is closed again
      rw [if_pos hf, entered]
      simp [Function.comp_def, hs.map_openCase (hapart hf)]
    · rw [if_neg hf, Bool.eq_false_iff.2 hf, entered_false]

/-! ### Test cases -/

/-- What is known once the tag of a test case has been read. -/
def begun (s : State) (c : TestCase) : State := { s with openCase := some c.opened }

/-- A test case is no suite. -/
theorem isSuite_eq_false_of_isCase (h : isCase tag = true) : isSuite tag = false := by
  rw [isCase, beq_iff_eq] at h
  rw [isSuite, h]
  rfl

/-- Behind the start tag of a test case, the test case is around. -/
theorem At.begun {c : TestCase} (h : s.At c.around) (hcase : isCase c.tag = true) :
    (s.begun c).At (c.tag :: c.around) where
  rootSeen := h.rootSeen
  suites := by
    simp [State.begun, suiteNames, isSuite_eq_false_of_isCase hcase, h.suites]
  openCase := by
    rw [inFailure?, if_pos hcase]
    rfl

/-- The tag of a test case can be read. -/
theorem ofTag_of_readable {c : TestCase} (hcase : isCase c.tag = true)
    (hread : ∀ name ∈ caseAttributes c.around c.tag, readable c.tag name = true) :
    OpenCase.ofTag c.tag = .ok c.opened := by
  rw [caseAttributes, if_pos hcase] at hread
  rw [OpenCase.ofTag, attributeValue_of_readable (hread "classname" (by simp)),
    attributeValue_of_readable (hread "name" (by simp)), attributeValue_of_readable (hread "time" (by simp))]
  rfl

/-- Behind the start tag of a test case, the test case is open. -/
theorem step_opened_case {c : TestCase} {content : List Item} (hs : s.At c.around) (hcase : isCase c.tag = true)
    (hread : Legible ⟨c.around, .element c.tag content⟩) : s.step (.opened c.tag) = .ok (s.begun c) := by
  have hname : c.tag.localName = "testcase" := beq_iff_eq.1 hcase
  have hattributes := hread.1 c.tag rfl
  simp only [attributesOf, isSuite_eq_false_of_isCase hcase, Bool.false_eq_true, if_false] at hattributes
  simp [step, hs.rootSeen, hname, ofTag_of_readable hcase hattributes, begun]

/-- At the end of a test case it is recorded. -/
theorem finish_eq_after {c : TestCase} (hs : s.At c.around) (hopen : s.openCase = none) {placed : List Placed}
    (hrecords : records placed = [(c.key, c.record)]) :
    s.finish (c.opened.after c.inside) = s.after placed := by
  have hsuite : s.suite = suiteName c.around := by rw [suite, hs.suites, suiteName]
  have hname : (c.opened.after c.inside).name = valueOf c.tag "name" := rfl
  rw [finish, hsuite, c.package_after, c.record_after, hname, State.after, hrecords, hopen, Option.map_none,
    ← hopen]
  rfl

/-- The end tag of a test case finishes the one that is open. -/
theorem close_testcase {c : OpenCase} (hopen : s.openCase = none) :
    ({ s with openCase := some c } : State).close "testcase" = s.finish c := by
  cases s
  subst hopen
  rfl

/-- Reading the events of a test case records it. -/
theorem run_case {c : TestCase} (hs : s.At c.around) (hcase : isCase c.tag = true)
    (hapart : ∀ outer ∈ c.around, isCase outer = false) (hread : Legible ⟨c.around, .element c.tag c.content⟩)
    (hinside : ∀ p ∈ c.inside, Apart p)
    (hrun : (s.begun c).run (eventsOf c.content) = .ok ((s.begun c).after c.inside)) :
    s.run (Item.element c.tag c.content).events =
      .ok (s.after (⟨c.around, .element c.tag c.content⟩ :: c.inside)) := by
  have hopen : s.openCase = none := hs.openCase_eq_none (inFailure?_eq_none_iff.2 hapart)
  have hname : c.tag.localName = "testcase" := beq_iff_eq.1 hcase
  have hnone : records c.inside = [] := records_eq_nil List.mem_cons_self hcase hinside
  have hrecords : records (⟨c.around, .element c.tag c.content⟩ :: c.inside) = [(c.key, c.record)] := by
    rw [← List.singleton_append, records_append, hnone, List.append_nil]
    exact records_case c _ rfl rfl hcase
  have hend : (s.begun c).after c.inside = { s with openCase := some (c.opened.after c.inside) } := by
    rw [State.after, hnone]
    rfl
  have hclosed : ((s.begun c).after c.inside).step (.closed c.tag.name) =
      .ok (s.after (⟨c.around, .element c.tag c.content⟩ :: c.inside)) := by
    rw [← finish_eq_after hs hopen hrecords, ← close_testcase hopen, ← hend, ← hname]
    rfl
  rw [Item.events, run_cons (step_opened_case hs hcase hread), run_append hrun, run_singleton hclosed]

/-- Reading a test case without content records it. -/
theorem step_empty_case {c : TestCase} (hs : s.At c.around) (hcase : isCase c.tag = true)
    (hcontent : c.content = []) (hapart : ∀ outer ∈ c.around, isCase outer = false) (hread : Legible ⟨c.around, .empty c.tag⟩) :
    s.step (.empty c.tag) = .ok (s.after [⟨c.around, .empty c.tag⟩]) := by
  have hopen : s.openCase = none := hs.openCase_eq_none (inFailure?_eq_none_iff.2 hapart)
  have hname : c.tag.localName = "testcase" := beq_iff_eq.1 hcase
  have hinside : c.inside = [] := by
    rw [TestCase.inside, hcontent]
    rfl
  have hfinish := finish_eq_after hs hopen (records_case c (.empty c.tag) rfl hcontent.symm hcase)
  rw [hinside, OpenCase.after_nil] at hfinish
  simp [step, hs.rootSeen, hname, ofTag_of_readable hcase (hread.1 c.tag rfl), hfinish]

/-! ### All events -/

/-- Reading the events of any other element adds what the items inside say, where the element itself counts. -/
theorem run_element {content : List Item} (hs : s.At around) (hcase : isCase tag = false)
    (hapart : Apart ⟨around, .element tag content⟩) (hread : Legible ⟨around, .element tag content⟩)
    (hrun : ((s.after [⟨around, .element tag content⟩]).within tag).run (eventsOf content) =
      .ok (((s.after [⟨around, .element tag content⟩]).within tag).after (placedIn (tag :: around) content))) :
    s.run (Item.element tag content).events =
      .ok (s.after (⟨around, .element tag content⟩ :: placedIn (tag :: around) content)) := by
  have hself := hs.after [⟨around, .element tag content⟩]
  have hclosed := step_closed (hself.after (placedIn (tag :: around) content)) hcase fun hf =>
    inFailure?_ne_true ((hapart tag rfl).2 hf)
  rw [after_within] at hrun
  rw [Item.events, run_cons (step_opened hs hcase hread), run_append hrun, run_singleton hclosed, ← after_append]
  rfl

mutual

/-- Reading the events of an item adds what the tree says about it. -/
theorem run_events {s : State} {around : List Tag} (hs : s.At around) :
    ∀ item : Item, (∀ p ∈ ⟨around, item⟩ :: placedInside around item, Apart p ∧ Legible p) →
      s.run item.events = .ok (s.after (⟨around, item⟩ :: placedInside around item))
  | .element tag content => by
      intro h
      obtain ⟨hitem, hinside⟩ := List.forall_mem_cons.1 h
      rw [placedInside] at hinside ⊢
      by_cases hcase : isCase tag = true
      · let c : TestCase := ⟨around, tag, content⟩
        have hbegun : (s.begun c).At (tag :: around) := At.begun (c := c) hs hcase
        exact run_case (c := c) hs hcase ((hitem.1 tag rfl).1 hcase) hitem.2 (fun p hp => (hinside p hp).1)
          (run_eventsOf hbegun content hinside)
      · have hcase := Bool.eq_false_iff.2 hcase
        have hopened := (hs.after [⟨around, .element tag content⟩]).within hcase
        exact run_element hs hcase hitem.1 hitem.2 (run_eventsOf hopened content hinside)
  | .empty tag => by
      intro h
      obtain ⟨hitem, -⟩ := List.forall_mem_cons.1 h
      refine run_singleton ?_
      by_cases hcase : isCase tag = true
      · exact step_empty_case (c := ⟨around, tag, []⟩) hs hcase rfl ((hitem.1 tag rfl).1 hcase) hitem.2
      · exact step_empty hs (Bool.eq_false_iff.2 hcase) hitem.2
  | .text raw => by
      intro h
      obtain ⟨hitem, -⟩ := List.forall_mem_cons.1 h
      refine run_singleton (text_of_expands hs (.text raw) rfl fun hin => ?_)
      obtain ⟨content, hcontent⟩ := Option.isSome_iff_exists.1 (hitem.2.2 hin)
      rw [expandText, hcontent, characters, hcontent]
      rfl
  | .cdata content => by
      intro h
      exact run_singleton (text_of_expands hs (.cdata content) rfl fun _ => rfl)
  | .other => by
      intro h
      have hself : s.after [⟨around, .other⟩] = s :=
        after_eq_self (fun c _ => by simp [c.after_characters around .other rfl, characters])
          (records_singleton (by simp [tag?]))
      exact run_singleton (congrArg Except.ok hself.symm)

/-- **Reading the events of some items** adds what the tree says about them. -/
theorem run_eventsOf {s : State} {around : List Tag} (hs : s.At around) :
    ∀ items : List Item, (∀ p ∈ placedIn around items, Apart p ∧ Legible p) →
      s.run (eventsOf items) = .ok (s.after (placedIn around items))
  | [] => by
      intro h
      rw [placedIn, after_eq_self (fun c _ => c.after_nil) rfl]
      rfl
  | item :: later => by
      intro h
      rw [placedIn, ← List.cons_append] at h ⊢
      obtain ⟨hitem, hlater⟩ := List.forall_mem_append.1 h
      rw [eventsOf, run_append (run_events hs item hitem), run_eventsOf (hs.after _) later hlater, after_append]

end

/-! ### The root -/

/-- What is known once the root has been seen and nothing else. -/
def started : State := { initial with rootSeen := true }

theorem started_at : started.At [] := ⟨rfl, rfl, rfl⟩

/-- A root that is a suite or a list of suites has the effect that it would have elsewhere. -/
theorem step_initial (hname : tag.localName = "testsuites" ∨ tag.localName = "testsuite") :
    initial.step (.opened tag) = started.step (.opened tag) ∧
      initial.step (.empty tag) = started.step (.empty tag) := by
  rcases hname with hname | hname <;> refine ⟨?_, ?_⟩ <;>
    simp [step, root, checkRoot, hname, initial, started, outcome] <;> rfl

/-- With such a root, reading may begin as if a root had been seen before. -/
theorem run_initial {items : List Item} {root : Tag} (hroot : root? items = some root)
    (hname : root.localName = "testsuites" ∨ root.localName = "testsuite") :
    initial.run (eventsOf items) = started.run (eventsOf items) := by
  induction items with
  | nil => cases hroot
  | cons item later ih =>
      cases item with
      | element tag content =>
          obtain rfl : tag = root := Option.some.inj hroot
          simp only [run, eventsOf, Item.events, List.cons_append, List.foldlM_cons, (step_initial hname).1]
      | empty tag =>
          obtain rfl : tag = root := Option.some.inj hroot
          simp only [run, eventsOf, Item.events, List.cons_append, List.foldlM_cons, (step_initial hname).2]
      | _ => exact ih hroot

end State

/-- **What a report says is what is read from it.** Take a well-formed document whose first element is a suite or a
list of suites, where no test case stands in a test case, no failure in a failure, and all that counts can be read.
Then the report is read, each key has the record of the last test case with this key, and there are no other
records. -/
theorem parse_eq_lastRecord? {document : String} {items : List Item} {root : Tag}
    (hitems : Item.ofDocument? document = some items) (hroot : root? items = some root)
    (hname : root.localName = "testsuites" ∨ root.localName = "testsuite")
    (apart : ∀ p ∈ placedIn [] items, Apart p) (legible : ∀ p ∈ placedIn [] items, Legible p) :
    ∃ results, parse document = .ok results ∧ results.Distinct ∧
      ∀ key, results.get? key = lastRecord? (testCases (placedIn [] items)) key := by
  have hrun := State.run_eventsOf State.started_at items fun p hp => ⟨apart p hp, legible p hp⟩
  rw [← State.run_initial hroot hname, State.run] at hrun
  refine ⟨Results.empty.insertAll (records (placedIn [] items)), ?_, ?_, ?_⟩
  · rw [parse, Item.ofDocument?_eq_some_iff.1 hitems]
    simp only [hrun]
    rfl
  · exact Results.distinct_insertAll Results.distinct_empty _
  · intro key
    have hnone : Results.empty.get? key = none := rfl
    rw [Results.get?_insertAll, records, ← List.map_reverse, List.find?_map, hnone, Option.or_none, Option.map_map]
    rfl

/-! ### A failure that is also skipped -/

/-- A tag with the given name and attributes. -/
def tagOf (name attributes : String) : Tag := ⟨name.toList, attributes.toList⟩

/-- A report with one test case that is both skipped and failed. -/
def skippedFailure : String :=
  "<testsuite name=\"p\"><testcase name=\"T\"><skipped/><error>a &lt; b</error></testcase></testsuite>"

/-- The report as a tree. -/
def skippedFailureItems : List Item :=
  [.element (tagOf "testsuite" " name=\"p\"")
    [.element (tagOf "testcase" " name=\"T\"")
      [.empty (tagOf "skipped" ""), .element (tagOf "error" "") [.text "a &lt; b".toList]]]]

/-- The failure outweighs the skip, and its message is the text inside. -/
theorem parse_eq_lastRecord?_skippedFailure :
    Item.ofDocument? skippedFailure = some skippedFailureItems ∧
      ∃ results, parse skippedFailure = .ok results ∧ results.Distinct ∧
        results.get? "p::T" = some ⟨.fail, none, some "a < b"⟩ ∧ results.get? "T" = none := by
  have hitems : Item.ofDocument? skippedFailure = some skippedFailureItems := by
    refine Item.ofDocument?_of_events ?_
    decide +kernel
  have hroot : root? skippedFailureItems = some (tagOf "testsuite" " name=\"p\"") := rfl
  obtain ⟨results, hparse, hdistinct, hget⟩ :=
    parse_eq_lastRecord? hitems hroot (.inr (by decide)) (by decide +kernel) (by decide +kernel)
  refine ⟨hitems, results, hparse, hdistinct, ?_, ?_⟩
  · rw [hget]
    decide +kernel
  · rw [hget]
    decide +kernel

end SuiteReport.JUnit
