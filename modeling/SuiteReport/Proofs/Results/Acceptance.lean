import SuiteReport.Proofs.Markup.Draft
import SuiteReport.Proofs.Results.CaseReading
/-!
# Reports that can be read

Of a report that can be read nothing need be asked to say what was read, but that no test case stands in another.
It may end before its elements do, failures may stand in failures, and whatever is not needed may be broken. While
the items inside some elements are read, the list of suite names holds those of the suites among these elements;
the open test case goes on with what is read, and at its end its own record is added.

## Main definitions

* `State.Inside`: what is known matches the suites around the next item.
* `State.Reads`: what reading some items has added.

## Main results

* `State.reads_of_run_eventsOf`: what reading some items adds, if they can be read.
* `State.results_of_run_draft`: the same for a document that may end early.
* `results_of_parse`: the results of a report that can be read are the readings of its test cases.
* `distinct_of_parse`: no key occurs twice among them.
-/

namespace SuiteReport.JUnit

open Markup Markup.Item

/-! ### What reading adds -/

/-- A value that could be read is the value of the attribute. -/
theorem valueOf_of_attributeValue {tag : Tag} {name value : String} (h : attributeValue tag name = .ok value) :
    value = valueOf tag name := by
  rw [valueOf, h]
  rfl

/-- A computation that goes on after a first one succeeds exactly if both do. -/
theorem bind_eq_ok {α β : Type} {x : Except ReportError α} {f : α → Except ReportError β} {b : β} :
    x >>= f = .ok b ↔ ∃ a, x = .ok a ∧ f a = .ok b := by
  cases x with
  | error e => exact ⟨fun h => (nomatch h), fun ⟨_, h, _⟩ => (nomatch h)⟩
  | ok a => exact ⟨fun h => ⟨a, rfl, h⟩, fun ⟨_, h, h'⟩ => by cases h; exact h'⟩

/-- A test case that could be opened has the values of its attributes. -/
theorem eq_opened_of_ofTag {c : TestCase} {o : OpenCase} (h : OpenCase.ofTag c.tag = .ok o) : o = c.opened := by
  obtain ⟨className, hclass, h⟩ := bind_eq_ok.1 h
  obtain ⟨name, hname, h⟩ := bind_eq_ok.1 h
  obtain ⟨time, htime, h⟩ := bind_eq_ok.1 h
  obtain rfl := Except.ok.inj h
  rw [valueOf_of_attributeValue hclass, valueOf_of_attributeValue hname, valueOf_of_attributeValue htime]
  rfl

/-- Characters that could be expanded are those of the text. -/
theorem eq_of_expandText {raw content : List Char} (h : State.expandText raw = .ok content) :
    content = (expand? raw).getD [] := by
  rw [State.expandText] at h
  split at h
  next hexpand => rw [hexpand]; exact (Except.ok.inj h).symm
  next => cases h

namespace State

/-- **What is known matches the suites around the next item.** -/
structure Inside (s : State) (around : List Tag) : Prop where
  /-- The root has been seen. -/
  rootSeen : s.rootSeen = true
  /-- The suites around the item are open. -/
  suites : s.suites = suiteNames around

/-- **What reading has added** when `s` was known before some items and `t` behind them: the readings of the test
cases among the items and, where there is none among them, what the items say about the open test case. -/
structure Reads (s : State) (around : List Tag) (placed : List Placed) (events : List Event) (t : State) : Prop where
  /-- The elements around are the same as before. -/
  inside : t.Inside around
  /-- The test cases have been recorded. -/
  results : t.results = s.results.insertAll (readings placed)
  /-- The test case that was open before is still open. -/
  openCase : (∀ p ∈ placed, NoCase p) → t.openCase = s.openCase.map (·.readAll events)

variable {s t : State} {around : List Tag} {tag : Tag}

/-- Several events can be read exactly if they can one after the other. -/
theorem run_append_eq_ok {events later : List Event} :
    s.run (events ++ later) = .ok t ↔ ∃ m, s.run events = .ok m ∧ m.run later = .ok t := by
  rw [run, List.foldlM_append]
  exact bind_eq_ok

/-- The first event is read before the others. -/
theorem run_cons_eq_ok {e : Event} {rest : List Event} :
    s.run (e :: rest) = .ok t ↔ ∃ m, s.step e = .ok m ∧ m.run rest = .ok t := by
  rw [run, List.foldlM_cons]
  exact bind_eq_ok

/-- A single event is read by a step. -/
theorem run_singleton_eq_ok {e : Event} : s.run [e] = .ok t ↔ s.step e = .ok t := by
  rw [run_cons_eq_ok]
  exact ⟨fun ⟨m, hm, h⟩ => by cases h; exact hm, fun h => ⟨t, h, rfl⟩⟩

/-! ### One event -/

/-- An element that is no test case changes the open one only. -/
theorem eq_of_outcome {hasContent : Bool} (h : s.outcome tag hasContent = .ok t) :
    t = { s with openCase := s.openCase.map (·.element tag hasContent) } := by
  rw [outcome] at h
  cases hopen : s.openCase with
  | none =>
      rw [hopen] at h
      obtain rfl := Except.ok.inj h
      rw [Option.map_none, ← hopen]
  | some c =>
      simp only [hopen] at h
      rw [Option.map_some, OpenCase.element]
      by_cases hf : isFailure tag.localName = true
      · rw [if_pos hf] at h
        obtain ⟨message, hmessage, h⟩ := bind_eq_ok.1 h
        rw [if_pos hf, ← valueOf_of_attributeValue hmessage]
        exact (Except.ok.inj h).symm
      · by_cases hk : tag.localName = "skipped"
        · rw [if_neg hf, if_pos hk] at h
          obtain ⟨message, hmessage, h⟩ := bind_eq_ok.1 h
          have hskip : isSkip tag.localName = true := beq_iff_eq.2 hk
          rw [if_neg hf, if_pos hskip, ← valueOf_of_attributeValue hmessage]
          exact (Except.ok.inj h).symm
        · rw [if_neg hf, if_neg hk] at h
          obtain rfl := Except.ok.inj h
          rw [if_neg hf, if_neg (by simpa [isSkip] using hk), ← hopen]

/-- Characters change the open test case only. -/
theorem eq_of_text {read : Except ReportError (List Char)} {content : List Char}
    (hread : ∀ chars, read = .ok chars → chars = content) (h : s.text read = .ok t) :
    t = { s with openCase := s.openCase.map (·.characters content) } := by
  rw [text] at h
  cases hopen : s.openCase with
  | none =>
      rw [hopen] at h
      obtain rfl := Except.ok.inj h
      rw [Option.map_none, ← hopen]
  | some c =>
      simp only [hopen] at h
      rw [Option.map_some, OpenCase.characters]
      by_cases hin : c.inFailure = true
      · rw [if_pos hin] at h
        obtain ⟨chars, hchars, h⟩ := bind_eq_ok.1 h
        rw [if_pos hin, ← hread chars hchars]
        exact (Except.ok.inj h).symm
      · rw [if_neg hin] at h
        obtain rfl := Except.ok.inj h
        rw [if_neg hin, ← hopen]

/-- A start tag that is no test case opens a suite or changes the open test case. -/
theorem eq_of_step_opened (hroot : s.rootSeen = true) (hcase : isCase tag = false)
    (h : s.step (.opened tag) = .ok t) :
    t = { s with
      suites := if isSuite tag then valueOf tag "name" :: s.suites else s.suites
      openCase := s.openCase.map (·.read (.opened tag)) } := by
  have hname : tag.localName ≠ "testcase" := beq_eq_false_iff_ne.1 hcase
  by_cases hsuite : isSuite tag = true
  · simp only [step, hroot, beq_iff_eq.1 hsuite, Bool.not_true, Bool.false_eq_true, if_false, if_true] at h
    obtain ⟨name, hvalue, h⟩ := bind_eq_ok.1 h
    have hopen : s.openCase.map (·.read (.opened tag)) = s.openCase := by
      simp only [OpenCase.read, OpenCase.element_of_isSuite _ hsuite, Option.map_id']
    rw [if_pos hsuite, hopen, ← valueOf_of_attributeValue hvalue, ← Except.ok.inj h, hroot]
  · have hname' : tag.localName ≠ "testsuite" := beq_eq_false_iff_ne.1 (Bool.eq_false_iff.2 hsuite)
    simp only [step, hroot, hname, hname', Bool.not_true, Bool.false_eq_true, if_false] at h
    rw [if_neg hsuite]
    exact eq_of_outcome h

/-- The start tag of a test case opens it. -/
theorem eq_of_step_opened_case {c : TestCase} (hroot : s.rootSeen = true) (hcase : isCase c.tag = true)
    (h : s.step (.opened c.tag) = .ok t) : t = { s with openCase := some c.opened } := by
  have hname : c.tag.localName = "testcase" := beq_iff_eq.1 hcase
  simp only [step, hroot, hname, Bool.not_true, Bool.false_eq_true, if_false, if_true] at h
  obtain ⟨o, ho, h⟩ := bind_eq_ok.1 h
  rw [← eq_opened_of_ofTag ho, ← Except.ok.inj h, hroot]

/-- An empty element that is no test case changes the open one only. -/
theorem eq_of_step_empty (hroot : s.rootSeen = true) (hcase : isCase tag = false)
    (h : s.step (.empty tag) = .ok t) :
    t = { s with openCase := s.openCase.map (·.read (.empty tag)) } := by
  have hname : tag.localName ≠ "testcase" := beq_eq_false_iff_ne.1 hcase
  simp only [step, hroot, hname, Bool.not_true, Bool.false_eq_true, if_false] at h
  exact eq_of_outcome h

/-- An empty test case is recorded. -/
theorem eq_of_step_empty_case {c : TestCase} (hroot : s.rootSeen = true) (hcase : isCase c.tag = true)
    (h : s.step (.empty c.tag) = .ok t) : t = s.finish c.opened := by
  have hname : c.tag.localName = "testcase" := beq_iff_eq.1 hcase
  simp only [step, hroot, hname, Bool.not_true, Bool.false_eq_true, if_false, if_true] at h
  obtain ⟨o, ho, h⟩ := bind_eq_ok.1 h
  rw [← eq_opened_of_ofTag ho]
  exact (Except.ok.inj h).symm

/-- The end tag of an element that is no test case closes a suite or changes the open test case. -/
theorem close_eq (hcase : isCase tag = false) :
    s.close tag.localName =
      { s with
        suites := if isSuite tag then s.suites.tail else s.suites
        openCase := s.openCase.map (·.read (.closed tag.name)) } := by
  have hname : tag.localName ≠ "testcase" := beq_eq_false_iff_ne.1 hcase
  have hread (c : OpenCase) : c.read (.closed tag.name) =
      if isFailure tag.localName then { c with inFailure := false } else c := rfl
  by_cases hsuite : isSuite tag = true
  · rw [close, if_pos (beq_iff_eq.1 hsuite), if_pos hsuite]
    simp [hread, (not_outcome_of_isSuite hsuite).1]
  · have hname' : tag.localName ≠ "testsuite" := beq_eq_false_iff_ne.1 (Bool.eq_false_iff.2 hsuite)
    rw [close, if_neg hname', if_neg hname, if_neg hsuite]
    by_cases hf : isFailure tag.localName = true <;> simp [hread, hf]

/-! ### All events -/

/-- Where nothing is read, nothing is added. -/
theorem Inside.reads_nil (hs : s.Inside around) : s.Reads around [] [] s where
  inside := hs
  results := rfl
  openCase := fun _ => by simp [OpenCase.readAll]

/-- What is added is added by the one after the other. -/
theorem Reads.append {m : State} {placed later : List Placed} {events rest : List Event}
    (h : s.Reads around placed events m) (h' : m.Reads around later rest t) :
    s.Reads around (placed ++ later) (events ++ rest) t where
  inside := h'.inside
  results := by rw [h'.results, h.results, readings_append, Results.insertAll_append]
  openCase := by
    intro none
    obtain ⟨hplaced, hlater⟩ := List.forall_mem_append.1 none
    rw [h'.openCase hlater, h.openCase hplaced, Option.map_map]
    simp only [Function.comp_def, OpenCase.readAll_append]

/-- An event that changes the open test case only adds no reading. -/
theorem Inside.reads_of_eq (hs : s.Inside around) {item : Item} (hnone : NoCase ⟨around, item⟩) {e : Event}
    (ht : t = { s with openCase := s.openCase.map (·.read e) }) : s.Reads around [⟨around, item⟩] [e] t where
  inside := by
    subst ht
    exact ⟨hs.rootSeen, hs.suites⟩
  results := by
    rw [ht, readings_singleton hnone]
    rfl
  openCase := fun _ => by
    rw [ht]
    rfl

/-- Behind the start tag of an element, this element is around too. -/
theorem Inside.cons (hs : s.Inside around) (openCase : Option OpenCase) :
    ({ s with suites := if isSuite tag then valueOf tag "name" :: s.suites else s.suites, openCase } : State).Inside
      (tag :: around) where
  rootSeen := hs.rootSeen
  suites := by
    by_cases hsuite : isSuite tag = true <;> simp [suiteNames, hsuite, hs.suites]

/-- Behind the start tag of a test case, the test case is around too. -/
theorem Inside.begun (hs : s.Inside around) (hcase : isCase tag = true) (openCase : Option OpenCase) :
    ({ s with openCase } : State).Inside (tag :: around) where
  rootSeen := hs.rootSeen
  suites := by simp [suiteNames, isSuite_eq_false_of_isCase hcase, hs.suites]

/-- Behind the end tag of an element, the elements around are the same as before it. -/
theorem Inside.tail (hs : s.Inside (tag :: around)) :
    (if isSuite tag then s.suites.tail else s.suites) = suiteNames around := by
  rw [hs.suites]
  by_cases hsuite : isSuite tag = true <;> simp [suiteNames, hsuite]

/-- Reading an element that is no test case adds what is inside. -/
theorem reads_of_element {content : List Item} {before behind : State} (hs : s.Inside around)
    (hcase : isCase tag = false) (hopened : s.step (.opened tag) = .ok before)
    (hinside : before.Inside (tag :: around) →
      before.Reads (tag :: around) (placedIn (tag :: around) content) (eventsOf content) behind)
    (hclosed : behind.step (.closed tag.name) = .ok t) :
    s.Reads around (⟨around, .element tag content⟩ :: placedIn (tag :: around) content)
      (Item.element tag content).events t := by
  have hself : NoCase ⟨around, .element tag content⟩ := noCase_of_tag?_eq_some rfl hcase
  have hbefore := eq_of_step_opened hs.rootSeen hcase hopened
  have hreads := hinside (hbefore ▸ hs.cons _)
  have ht := (Except.ok.inj hclosed).symm.trans (close_eq hcase)
  refine ⟨⟨?_, ?_⟩, ?_, ?_⟩
  · rw [ht, hreads.inside.rootSeen]
  · rw [ht, hreads.inside.tail]
  · rw [ht, hreads.results, readings_cons, readings_singleton hself, hbefore]
    rfl
  · intro none
    rw [ht, hreads.openCase (List.forall_mem_cons.1 none).2, hbefore, Option.map_map, Option.map_map]
    simp only [Function.comp_def, OpenCase.readAll, Item.events, List.foldl_cons, List.foldl_append, List.foldl_nil]

/-- Reading a test case records it. -/
theorem reads_of_case {c : TestCase} {before behind : State} (hs : s.Inside c.around) (hcase : isCase c.tag = true)
    (hnone : ∀ p ∈ c.inside, NoCase p) (hopened : s.step (.opened c.tag) = .ok before)
    (hinside : before.Inside (c.tag :: c.around) →
      before.Reads (c.tag :: c.around) c.inside (eventsOf c.content) behind)
    (hclosed : behind.step (.closed c.tag.name) = .ok t) :
    s.Reads c.around (⟨c.around, .element c.tag c.content⟩ :: c.inside)
      (Item.element c.tag c.content).events t := by
  have hsuites : suiteNames (c.tag :: c.around) = suiteNames c.around := by
    simp [suiteNames, isSuite_eq_false_of_isCase hcase]
  have hbefore := eq_of_step_opened_case hs.rootSeen hcase hopened
  have hreads := hinside (hbefore ▸ hs.begun hcase _)
  have hopen : behind.openCase = some (c.opened.readAll (eventsOf c.content)) := by
    rw [hreads.openCase hnone, hbefore]
    rfl
  have ht : t = { behind.finish (c.opened.readAll (eventsOf c.content)) with openCase := none } := by
    have hclose : behind.close c.tag.localName = t := Except.ok.inj hclosed
    rw [← hclose, close, beq_iff_eq.1 hcase]
    simp [hopen]
  have hsuite : behind.suite = suiteName c.around := by
    rw [suite, hreads.inside.suites, hsuites, suiteName]
  obtain ⟨hpackage, hname⟩ := c.package_readAll
  refine ⟨⟨?_, ?_⟩, ?_, ?_⟩
  · rw [ht, finish, hreads.inside.rootSeen]
  · rw [ht, finish, hreads.inside.suites, hsuites]
  · rw [ht, finish, hreads.results, readings_eq_nil hnone, hbefore, hsuite, hpackage, hname, readings_cons,
      readings_eq_nil hnone, readings_case c (.element c.tag c.content) rfl rfl hcase]
    rfl
  · intro none
    have := (List.forall_mem_cons.1 none).1 c.tag rfl
    simp [hcase] at this

/-- Reading an empty test case records it. -/
theorem reads_of_empty_case {c : TestCase} (hs : s.Inside c.around) (hcase : isCase c.tag = true)
    (hcontent : c.content = []) (h : s.step (.empty c.tag) = .ok t) :
    s.Reads c.around [⟨c.around, .empty c.tag⟩] [.empty c.tag] t := by
  have ht := eq_of_step_empty_case hs.rootSeen hcase h
  obtain ⟨hpackage, hname⟩ := c.package_readAll
  have hread : c.opened.readAll (eventsOf c.content) = c.opened := by rw [hcontent]; rfl
  have hsuite : s.suite = suiteName c.around := by rw [suite, hs.suites, suiteName]
  rw [hread] at hpackage hname
  refine ⟨⟨?_, ?_⟩, ?_, ?_⟩
  · rw [ht, finish, hs.rootSeen]
  · rw [ht, finish, hs.suites]
  · rw [ht, finish, hsuite, hpackage, hname, readings_case c (.empty c.tag) rfl hcontent.symm hcase,
      TestCase.reading, hread]
    rfl
  · intro none
    have := (List.forall_mem_singleton.1 none) c.tag rfl
    simp [hcase] at this

mutual

/-- Reading the events of an item, if they can be read, adds the test cases in it. -/
theorem reads_of_run_events {s t : State} {around : List Tag} (hs : s.Inside around) :
    ∀ item : Item, (∀ p ∈ ⟨around, item⟩ :: placedInside around item, CaseApart p) → s.run item.events = .ok t →
      s.Reads around (⟨around, item⟩ :: placedInside around item) item.events t
  | .element tag content => by
      intro apart h
      obtain ⟨-, hinside⟩ := List.forall_mem_cons.1 apart
      rw [placedInside] at hinside ⊢
      obtain ⟨before, hopened, h⟩ := run_cons_eq_ok.1 h
      obtain ⟨behind, hcontent, h⟩ := run_append_eq_ok.1 h
      have hclosed := run_singleton_eq_ok.1 h
      have hreads (hbefore : before.Inside (tag :: around)) := reads_of_run_eventsOf hbefore content hinside hcontent
      by_cases hcase : isCase tag = true
      · exact @reads_of_case s t ⟨around, tag, content⟩ before behind hs hcase
          (noCase_of_caseApart hcase (fun _ => mem_around_of_mem_placedIn List.mem_cons_self content) hinside)
          hopened hreads hclosed
      · exact reads_of_element hs (Bool.eq_false_iff.2 hcase) hopened hreads hclosed
  | .empty tag => by
      intro _ h
      have h := run_singleton_eq_ok.1 h
      by_cases hcase : isCase tag = true
      · exact @reads_of_empty_case s t ⟨around, tag, []⟩ hs hcase rfl h
      · have hcase := Bool.eq_false_iff.2 hcase
        exact hs.reads_of_eq (noCase_of_tag?_eq_some rfl hcase) (eq_of_step_empty hs.rootSeen hcase h)
  | .text raw => by
      intro _ h
      exact hs.reads_of_eq (noCase_of_tag?_eq_none rfl)
        (eq_of_text (fun _ => eq_of_expandText) (run_singleton_eq_ok.1 h))
  | .cdata content => by
      intro _ h
      exact hs.reads_of_eq (noCase_of_tag?_eq_none rfl)
        (eq_of_text (fun _ hchars => (Except.ok.inj hchars).symm) (run_singleton_eq_ok.1 h))
  | .other => by
      intro _ h
      have ht : t = s := (Except.ok.inj (run_singleton_eq_ok.1 h)).symm
      refine hs.reads_of_eq (noCase_of_tag?_eq_none rfl) ?_
      rw [ht]
      simp [OpenCase.read]

/-- **Reading the events of some items**, if they can be read, adds the test cases among them. -/
theorem reads_of_run_eventsOf {s t : State} {around : List Tag} (hs : s.Inside around) :
    ∀ items : List Item, (∀ p ∈ placedIn around items, CaseApart p) → s.run (eventsOf items) = .ok t →
      s.Reads around (placedIn around items) (eventsOf items) t
  | [] => by
      intro _ h
      obtain rfl := Except.ok.inj h
      exact hs.reads_nil
  | item :: later => by
      intro apart h
      rw [placedIn, ← List.cons_append] at apart ⊢
      obtain ⟨hitem, hlater⟩ := List.forall_mem_append.1 apart
      obtain ⟨m, hm, h⟩ := run_append_eq_ok.1 h
      have hreads := reads_of_run_events hs item hitem hm
      exact hreads.append (reads_of_run_eventsOf hreads.inside later hlater h)

end

/-- **Reading the events of a draft**, if they can be read, adds the test cases in it. An element without an end tag
adds nothing of its own. -/
theorem results_of_run_draft {d : Draft} (hs : s.Inside around) (apart : ∀ p ∈ d.placed around, CaseApart p)
    (h : s.run d.events = .ok t) : t.results = s.results.insertAll (readings (d.placed around)) := by
  induction d generalizing s around with
  | closed items => exact (reads_of_run_eventsOf hs items apart h).results
  | unclosed before tag inside ih =>
      rw [Draft.placed] at apart ⊢
      obtain ⟨hbefore, hinside⟩ := List.forall_mem_append.1 apart
      obtain ⟨m, hm, h⟩ := run_append_eq_ok.1 h
      obtain ⟨m', hopened, h⟩ := run_cons_eq_ok.1 h
      have hreads := reads_of_run_eventsOf hs before hbefore hm
      have hresults : m'.results = m.results ∧ m'.Inside (tag :: around) := by
        by_cases hcase : isCase tag = true
        · have hm' := @eq_of_step_opened_case m m' ⟨around, tag, []⟩ hreads.inside.rootSeen hcase hopened
          exact ⟨by rw [hm'], hm' ▸ hreads.inside.begun hcase _⟩
        · have hm' := eq_of_step_opened hreads.inside.rootSeen (Bool.eq_false_iff.2 hcase) hopened
          exact ⟨by rw [hm'], hm' ▸ hreads.inside.cons _⟩
      rw [ih hresults.2 hinside h, hresults.1, hreads.results, readings_append, Results.insertAll_append]

/-! ### The root -/

/-- The first element of what can be read is a suite or a list of suites. -/
theorem isRoot_of_root {hasContent : Bool} (h : s.root tag hasContent = .ok t) :
    tag.localName = "testsuites" ∨ tag.localName = "testsuite" := by
  obtain ⟨_, hroot, -⟩ := bind_eq_ok.1 h
  rw [checkRoot] at hroot
  split at hroot
  next hname => exact hname
  next => cases hroot

/-- Outside all elements an end tag changes nothing. -/
theorem close_of_outside (hsuites : s.suites = []) (hopen : s.openCase = none) (name : String) :
    s.close name = s := by
  obtain ⟨rootSeen, suites, openCase, results⟩ := s
  subst hsuites hopen
  simp [close]

/-- The first event either has the effect that it would have if a root had been seen before, or neither then nor now
has it any. -/
theorem step_initial_cases {e : Event} (h : initial.step e = .ok t) :
    started.step e = .ok t ∨ t = initial ∧ started.step e = .ok started := by
  cases e with
  | opened tag => exact .inl ((step_initial (isRoot_of_root h)).1 ▸ h)
  | empty tag => exact .inl ((step_initial (isRoot_of_root h)).2 ▸ h)
  | closed name =>
      refine .inr ⟨?_, congrArg Except.ok (close_of_outside rfl rfl _)⟩
      exact (Except.ok.inj h).symm.trans (close_of_outside rfl rfl _)
  | _ => exact .inr ⟨(Except.ok.inj h).symm, rfl⟩

/-- If a report has a root, it is read as if a root had been seen before. -/
theorem run_started_of_run_initial {events : List Event} (h : initial.run events = .ok t)
    (hroot : t.rootSeen = true) : started.run events = .ok t := by
  induction events with
  | nil =>
      obtain rfl := Except.ok.inj h
      cases hroot
  | cons e rest ih =>
      obtain ⟨m, hm, hrest⟩ := run_cons_eq_ok.1 h
      rcases step_initial_cases hm with hstarted | ⟨rfl, hstarted⟩
      · exact run_cons_eq_ok.2 ⟨m, hstarted, hrest⟩
      · exact run_cons_eq_ok.2 ⟨started, hstarted, ih hrest⟩

end State

/-- **A report that can be read** is a draft, and its results are the readings of the test cases in it. -/
theorem results_of_parse {document : String} {results : Results} (h : parse document = .ok results) :
    ∃ d, Draft.ofDocument? document = some d ∧
      ((∀ p ∈ d.placed [], CaseApart p) → results = Results.empty.insertAll (readings (d.placed []))) := by
  obtain ⟨t, hrun, h⟩ := bind_eq_ok.1 h
  split at h
  next => cases h
  next nofault =>
      split at h
      next hroot =>
          obtain rfl := Except.ok.inj h
          obtain ⟨d, hd⟩ := Draft.exists_ofDocument? nofault
          refine ⟨d, hd, ?_⟩
          intro apart
          have hevents : (Reading.ofString document).events = d.events := by rw [Draft.ofDocument?_eq_some_iff.1 hd]
          have hstarted := State.run_started_of_run_initial hrun hroot
          rw [hevents] at hstarted
          exact State.results_of_run_draft ⟨rfl, rfl⟩ apart hstarted
      next => cases h

/-! ### Keys -/

namespace State

variable {s t : State} {tag : Tag}

/-- The root's tag records nothing. -/
theorem results_of_root {hasContent : Bool} (h : s.root tag hasContent = .ok t) : t.results = s.results := by
  obtain ⟨-, -, h⟩ := bind_eq_ok.1 h
  split at h
  · obtain ⟨name, -, h⟩ := bind_eq_ok.1 h
    rw [← Except.ok.inj h]
  · rw [← Except.ok.inj h]

/-- **An event records one test case or none.** -/
theorem results_of_step {e : Event} (h : s.step e = .ok t) :
    t.results = s.results ∨ ∃ c : OpenCase, t.results = (s.finish c).results := by
  cases e with
  | opened tag =>
      left
      simp only [step] at h
      split at h
      · exact results_of_root h
      · split at h
        · obtain ⟨name, -, h⟩ := bind_eq_ok.1 h
          rw [← Except.ok.inj h]
        · split at h
          · obtain ⟨c, -, h⟩ := bind_eq_ok.1 h
            rw [← Except.ok.inj h]
          · rw [eq_of_outcome h]
  | empty tag =>
      simp only [step] at h
      split at h
      · exact .inl (results_of_root h)
      · split at h
        · obtain ⟨c, -, h⟩ := bind_eq_ok.1 h
          exact .inr ⟨c, by rw [← Except.ok.inj h]⟩
        · exact .inl (by rw [eq_of_outcome h])
  | closed name =>
      rw [← Except.ok.inj h, close]
      split
      · exact .inl rfl
      · split
        · cases s.openCase with
          | none => exact .inl rfl
          | some c => exact .inr ⟨c, rfl⟩
        · split <;> exact .inl rfl
  | text raw => exact .inl (by rw [eq_of_text (fun _ => eq_of_expandText) h])
  | cdata content => exact .inl (by rw [eq_of_text (fun _ hread => (Except.ok.inj hread).symm) h])
  | other => exact .inl (by rw [← Except.ok.inj h])

/-- Reading keeps the keys distinct. -/
theorem distinct_of_run {events : List Event} (hs : s.results.Distinct) (h : s.run events = .ok t) :
    t.results.Distinct := by
  induction events generalizing s with
  | nil => rwa [← Except.ok.inj h]
  | cons e rest ih =>
      obtain ⟨m, hm, hrest⟩ := run_cons_eq_ok.1 h
      refine ih ?_ hrest
      rcases results_of_step hm with hsame | ⟨c, hfinished⟩
      · rwa [hsame]
      · rw [hfinished]
        exact Results.distinct_insert hs _ _

end State

/-- **No key occurs twice** in the results of a report, whatever the report is. -/
theorem distinct_of_parse {document : String} {results : Results} (h : parse document = .ok results) :
    results.Distinct := by
  obtain ⟨t, hrun, h⟩ := bind_eq_ok.1 h
  split at h
  next => cases h
  next =>
      split at h
      next =>
          rw [← Except.ok.inj h]
          exact State.distinct_of_run Results.distinct_empty hrun
      next => cases h

end SuiteReport.JUnit
