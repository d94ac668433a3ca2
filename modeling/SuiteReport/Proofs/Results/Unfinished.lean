import SuiteReport.Proofs.Markup.Draft
import SuiteReport.Proofs.Results.Reading
/-!
# Reports that end early

A report may be cut off: elements are open where it ends, or it ends inside a piece of markup. Only the second is
noticed. What was read up to there is a draft, and its events are read like those of a whole report. If a fault
stopped the reading, the report is refused; if the reading came to the end, the report counts, and its results are the
records of the test cases that were closed. A test case that was still open leaves no record.

## Main definitions

* `firstTag?`: the first tag that was read.
* `Draft.Sound`: a draft that can be read as a tree as far as it goes.

## Main results

* `State.run_draft`: reading the events of a draft adds the records of the closed test cases in it.
* `parse_of_draft`: what the results of a report are, whether or not its elements are closed.
* `exists_draft_parse`: the same for every document, with the draft that it begins with.
-/

namespace SuiteReport.JUnit

open Markup Markup.Item

/-! ### The root -/

/-- The first tag among some events, if no end tag stands before it. -/
def firstTag? : List Event → Option Tag
  | .opened tag :: _ => some tag
  | .empty tag :: _ => some tag
  | .closed _ :: _ => none
  | .text _ :: rest => firstTag? rest
  | .cdata _ :: rest => firstTag? rest
  | .other :: rest => firstTag? rest
  | [] => none

namespace State

variable {s : State} {around : List Tag} {tag : Tag}

/-- If the first tag may be that of a root, reading may begin as if a root had been seen before. -/
theorem run_initial_of_firstTag {events : List Event} {root : Tag} (h : firstTag? events = some root)
    (hname : root.localName = "testsuites" ∨ root.localName = "testsuite") :
    initial.run events = started.run events := by
  induction events with
  | nil => cases h
  | cons e rest ih =>
      cases e with
      | opened tag =>
          obtain rfl : tag = root := Option.some.inj h
          simp only [run, List.foldlM_cons, (step_initial hname).1]
      | empty tag =>
          obtain rfl : tag = root := Option.some.inj h
          simp only [run, List.foldlM_cons, (step_initial hname).2]
      | closed name => cases h
      | _ => exact ih h

/-! ### Events of drafts -/

/-- Behind a start tag whose end tag is missing, its element is around, and nothing has been recorded. -/
theorem step_unclosed (hs : s.At around) (hread : Legible ⟨around, .element tag []⟩) :
    ∃ t, s.step (.opened tag) = .ok t ∧ t.At (tag :: around) ∧ t.results = s.results := by
  by_cases hcase : isCase tag = true
  · let c : TestCase := ⟨around, tag, []⟩
    exact ⟨s.begun c, step_opened_case (c := c) hs hcase hread, At.begun (c := c) hs hcase, rfl⟩
  · have hcase := Bool.eq_false_iff.2 hcase
    refine ⟨_, step_opened hs hcase hread, (hs.after _).within hcase, ?_⟩
    have hnone : records [⟨around, .element tag []⟩] = [] := by
      refine records_singleton ?_
      simpa [Item.tag?] using hcase
    rw [within, entered, after, hnone, Results.insertAll_nil]

/-- **Reading the events of a draft** adds the records of the closed test cases in it. The induction goes inwards
through the elements that are not closed: each is around what stands behind its tag. -/
theorem run_draft (hs : s.At around) (d : Draft)
    (h : ∀ p ∈ d.placed around ++ d.unclosedElements around, Apart p ∧ Legible p) :
    ∃ t, s.run d.events = .ok t ∧ t.rootSeen = true ∧
      t.results = s.results.insertAll (records (d.placed around)) := by
  induction d generalizing s around with
  | closed items =>
      obtain ⟨hitems, -⟩ := List.forall_mem_append.1 h
      exact ⟨s.after (placedIn around items), run_eventsOf hs items hitems, hs.rootSeen, rfl⟩
  | unclosed before tag inside ih =>
      obtain ⟨hplaced, hunclosed⟩ := List.forall_mem_append.1 h
      obtain ⟨hbefore, hinside⟩ := List.forall_mem_append.1 hplaced
      obtain ⟨hself, hinner⟩ := List.forall_mem_cons.1 hunclosed
      have hrun := run_eventsOf hs before hbefore
      obtain ⟨m, hstep, hm, hresults⟩ := step_unclosed (hs.after (placedIn around before)) hself.2
      obtain ⟨t, ht, hroot, hrecords⟩ := ih hm (List.forall_mem_append.2 ⟨hinside, hinner⟩)
      refine ⟨t, ?_, hroot, ?_⟩
      · rw [Draft.events, run_append hrun, run_cons hstep, ht]
      · rw [hrecords, hresults, Draft.placed, records_append, Results.insertAll_append]
        rfl

end State

/-! ### Documents -/

/-- A draft that can be read as a tree as far as it goes: its first tag is that of a suite or a list of suites, no
test case stands in a test case and no failure in a failure, and all that counts can be read. This is asked of the
elements that are not closed too. -/
structure Draft.Sound (d : Draft) : Prop where
  /-- The first tag may be that of a root. -/
  root : ∃ root, firstTag? d.events = some root ∧
    (root.localName = "testsuites" ∨ root.localName = "testsuite")
  /-- All elements are apart and legible. -/
  items : ∀ p ∈ d.placed [] ++ d.unclosedElements [], Apart p ∧ Legible p

/-- **The results of a report do not depend on its end.** If a fault stopped the reading, the report is refused.
Otherwise its results are the records of the closed test cases, whether or not elements are still open. -/
theorem parse_of_draft {document : String} {d : Draft} (hevents : (Reading.ofString document).events = d.events)
    (hd : Draft.Sound d) :
    parse document =
      match (Reading.ofString document).fault with
      | some fault => .error (.malformed fault)
      | none => .ok (Results.empty.insertAll (records (d.placed []))) := by
  obtain ⟨root, hroot, hname⟩ := hd.root
  obtain ⟨t, hrun, hseen, hresults⟩ := State.run_draft State.started_at d hd.items
  rw [← State.run_initial_of_firstTag hroot hname, State.run] at hrun
  have happen : parse document = match (Reading.ofString document).fault with
      | some fault => .error (.malformed fault)
      | none => if t.rootSeen then .ok t.results else .error .noRoot := by
    rw [parse, hevents]
    simp only [hrun]
    rfl
  rw [happen, hseen, hresults]
  rfl

/-- **A report that ends early is read as far as it goes.** What is read of any document, up to a fault in its markup
or to its end, is a draft. If the draft is sound, the document is refused if there is a fault. Otherwise its results
are the records of the closed test cases: elements that are still open at the end are not noticed, and what has no
closed test case has no record. -/
theorem exists_draft_parse (document : String) :
    ∃ d : Draft, (Reading.ofString document).events = d.events ∧
      (Draft.Sound d →
        (∀ fault, (Reading.ofString document).fault = some fault → parse document = .error (.malformed fault)) ∧
        ((Reading.ofString document).fault = none → ∃ results, parse document = .ok results ∧
          results = Results.empty.insertAll (records (d.placed [])) ∧
          ∀ key, (∀ c ∈ testCases (d.placed []), c.key ≠ key) → results.get? key = none)) := by
  obtain ⟨d, hd⟩ := Draft.exists_events document
  refine ⟨d, hd, ?_⟩
  intro sound
  have hparse := parse_of_draft hd sound
  constructor
  · intro fault hfault
    rw [hparse, hfault]
  · intro nofault
    rw [nofault] at hparse
    refine ⟨_, hparse, rfl, ?_⟩
    intro key hkey
    have hnone : (records (d.placed [])).reverse.find? (·.1 == key) = none := by
      rw [List.find?_eq_none]
      intro entry hentry
      obtain ⟨c, hc, rfl⟩ := List.mem_map.1 (List.mem_reverse.1 hentry)
      simpa using hkey c hc
    rw [Results.get?_insertAll, hnone]
    rfl

/-! ### A report that was cut off -/

/-- A report that was cut off inside its second test case. -/
def cutReport : String :=
  "<testsuites><testsuite name=\"p\"><testcase name=\"A\"/><testcase name=\"B\"><failure message=\"m\"/>"

/-- The report as a draft. -/
def cutReportDraft : Draft :=
  .unclosed [] (tagOf "testsuites" "")
    (.unclosed [] (tagOf "testsuite" " name=\"p\"")
      (.unclosed [.empty (tagOf "testcase" " name=\"A\"")] (tagOf "testcase" " name=\"B\"")
        (.closed [.empty (tagOf "failure" " message=\"m\"")])))

theorem reading_cutReport : (Reading.ofString cutReport).events = cutReportDraft.events ∧
    (Reading.ofString cutReport).fault = none := by
  decide +kernel

theorem ofDocument?_cutReport : Draft.ofDocument? cutReport = some cutReportDraft :=
  Draft.ofDocument?_of_events reading_cutReport

theorem sound_cutReportDraft : Draft.Sound cutReportDraft :=
  ⟨⟨_, rfl, .inl (by decide)⟩, by decide +kernel⟩

/-- The closed test case is recorded, and the failure of the other is lost. -/
theorem exists_draft_parse_cutReport :
    Draft.ofDocument? cutReport = some cutReportDraft ∧ Draft.Sound cutReportDraft ∧
      ∃ results, parse cutReport = .ok results ∧ results.get? "p::A" = some ⟨.pass, none, none⟩ ∧
        results.get? "p::B" = none := by
  obtain ⟨d, hd, hparse⟩ := exists_draft_parse cutReport
  have hread : Draft.ofDocument? cutReport = some d :=
    Draft.ofDocument?_eq_some_iff.2 (by rw [← hd, ← reading_cutReport.2])
  obtain rfl : d = cutReportDraft := Option.some.inj (hread.symm.trans ofDocument?_cutReport)
  obtain ⟨results, hresults, rfl, absent⟩ := (hparse sound_cutReportDraft).2 reading_cutReport.2
  exact ⟨ofDocument?_cutReport, sound_cutReportDraft, _, hresults, by decide +kernel, absent _ (by decide +kernel)⟩

/-- **Open elements are not noticed.** There is a report in which three elements are never closed; it is read, and the
test case among them has no record. -/
theorem exists_unclosed_parse_ok :
    ∃ document before tag inside results, Draft.ofDocument? document = some (.unclosed before tag inside) ∧
      parse document = .ok results ∧
      ∃ c ∈ testCases ((Draft.unclosed before tag inside).unclosedElements []), results.get? c.key = none := by
  have hparse := parse_of_draft reading_cutReport.1 sound_cutReportDraft
  rw [reading_cutReport.2] at hparse
  refine ⟨cutReport, _, _, _, _, ofDocument?_cutReport, hparse, ?_⟩
  exact ⟨_, List.mem_singleton_self _, by decide +kernel⟩

end SuiteReport.JUnit
