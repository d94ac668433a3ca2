import SuiteReport.Proofs.Results.Reading
/-!
# Reading a test case by itself

What the events between the tags of a test case do to it does not depend on the rest of the report, so a test case
has a record of its own: the one that reading these events gives. This record is there whatever stands in the test
case. Where no failure stands in another, it is the record that the tree gives.

## Main definitions

* `OpenCase.read`: the effect of an event on an open test case.
* `TestCase.reading`: the record that reading a test case gives.
* `CaseApart`, `FailureApart`: whether an item is no test case in a test case, and no failure in a failure.

## Main results

* `TestCase.reading_eq_record`: the record that reading gives is the one that the tree gives.
-/

namespace SuiteReport.JUnit

open Markup Markup.Item

/-! ### Reading a test case -/

namespace OpenCase

/-- The effect of an element inside an open test case. A failure that has content stays open. -/
def element (c : OpenCase) (tag : Tag) (hasContent : Bool) : OpenCase :=
  if isFailure tag.localName then
    { c with failure := some (valueOf tag "message"), inFailure := c.inFailure || hasContent }
  else if isSkip tag.localName then
    { c with skipped := some (valueOf tag "message") }
  else
    c

/-- The effect of characters inside an open test case. -/
def characters (c : OpenCase) (content : List Char) : OpenCase :=
  if c.inFailure then { c with failureText := c.failureText ++ String.ofList content } else c

/-- The effect of an event on an open test case that it does not end. -/
def read (c : OpenCase) : Event → OpenCase
  | .opened tag => c.element tag true
  | .empty tag => c.element tag false
  | .closed name => if isFailure (String.ofList (localPart name)) then { c with inFailure := false } else c
  | .text raw => c.characters ((expand? raw).getD [])
  | .cdata content => c.characters content
  | .other => c

/-- The effect of several events, one after the other. -/
def readAll (c : OpenCase) (events : List Event) : OpenCase := events.foldl read c

theorem readAll_append (c : OpenCase) (events later : List Event) :
    c.readAll (events ++ later) = (c.readAll events).readAll later :=
  List.foldl_append

/-- Reading goes on with the test case that was opened. -/
theorem read_keeps (c : OpenCase) (e : Event) : (c.read e).className = c.className ∧ (c.read e).name = c.name := by
  cases e <;> grind [read, element, characters]

/-- Reading goes on with the test case that was opened. -/
theorem readAll_keeps (c : OpenCase) (events : List Event) :
    (c.readAll events).className = c.className ∧ (c.readAll events).name = c.name := by
  induction events generalizing c with
  | nil => exact ⟨rfl, rfl⟩
  | cons e rest ih =>
      obtain ⟨hclass, hname⟩ := ih (c.read e)
      exact ⟨hclass.trans (c.read_keeps e).1, hname.trans (c.read_keeps e).2⟩

/-- A suite has no effect on an open test case. -/
theorem element_of_isSuite (c : OpenCase) {tag : Tag} (h : isSuite tag = true) (hasContent : Bool) :
    c.element tag hasContent = c := by
  obtain ⟨hf, hk⟩ := State.not_outcome_of_isSuite h
  simp [element, hf, hk]

end OpenCase

/-- The record that a test case gets when its events are read. -/
def TestCase.reading (c : TestCase) : Record := (c.opened.readAll (eventsOf c.content)).record

/-- What is tied to a test case when its events have been read. -/
theorem TestCase.package_readAll (c : TestCase) :
    (c.opened.readAll (eventsOf c.content)).package (suiteName c.around) = c.package ∧
      (c.opened.readAll (eventsOf c.content)).name = valueOf c.tag "name" := by
  obtain ⟨hclass, hname⟩ := c.opened.readAll_keeps (eventsOf c.content)
  refine ⟨?_, hname⟩
  rw [OpenCase.package, hclass]
  simp [opened, package, String.isEmpty_iff]

/-- The keys of the test cases among some items with the records that reading gives. -/
def readings (placed : List Placed) : List (String × Record) :=
  (testCases placed).map fun c => (c.key, c.reading)

theorem readings_append (placed later : List Placed) :
    readings (placed ++ later) = readings placed ++ readings later := by
  rw [readings, testCases_append, List.map_append, readings, readings]

theorem readings_cons (p : Placed) (placed : List Placed) :
    readings (p :: placed) = readings [p] ++ readings placed :=
  readings_append [p] placed

/-- Whether an item is no test case. -/
def NoCase (p : Placed) : Prop := ∀ tag ∈ p.item.tag?, isCase tag = false

/-- An element with another name is no test case. -/
theorem noCase_of_tag?_eq_some {p : Placed} {tag : Tag} (h : p.item.tag? = some tag) (hcase : isCase tag = false) :
    NoCase p := by
  intro tag' htag
  obtain rfl : tag = tag' := Option.some.inj (h.symm.trans htag)
  exact hcase

/-- What is no element is no test case. -/
theorem noCase_of_tag?_eq_none {p : Placed} (h : p.item.tag? = none) : NoCase p := by
  intro tag htag
  rw [h] at htag
  cases htag

/-- Whether an item is no test case inside another. -/
def CaseApart (p : Placed) : Prop :=
  ∀ tag ∈ p.item.tag?, isCase tag = true → ∀ outer ∈ p.around, isCase outer = false

instance (p : Placed) : Decidable (CaseApart p) :=
  inferInstanceAs (Decidable (∀ tag ∈ p.item.tag?, isCase tag = true → ∀ outer ∈ p.around, isCase outer = false))

/-- An item that is no test case has no reading. -/
theorem readings_singleton {p : Placed} (h : NoCase p) : readings [p] = [] := by
  rw [readings, testCases_eq_nil (List.forall_mem_singleton.2 h), List.map_nil]

/-- A test case has its reading. -/
theorem readings_case (c : TestCase) (item : Item) (htag : item.tag? = some c.tag)
    (hcontent : item.content = c.content) (hcase : isCase c.tag = true) :
    readings [⟨c.around, item⟩] = [(c.key, c.reading)] := by
  rw [readings, testCases_eq_singleton c item htag hcontent hcase, List.map_singleton]

/-- Inside a test case there is no other. -/
theorem noCase_of_caseApart {placed : List Placed} {outer : Tag} (hcase : isCase outer = true)
    (houter : ∀ p ∈ placed, outer ∈ p.around) (h : ∀ p ∈ placed, CaseApart p) : ∀ p ∈ placed, NoCase p := by
  intro p hp tag htag
  by_contra hne
  have := h p hp tag htag (by simpa using hne) outer (houter p hp)
  simp [hcase] at this

/-- Items without a test case have no readings. -/
theorem readings_eq_nil {placed : List Placed} (h : ∀ p ∈ placed, NoCase p) : readings placed = [] := by
  rw [readings, testCases_eq_nil h, List.map_nil]

/-! ### Reading and the tree -/

/-- Whether an item inside a test case is no other test case, and no failure in a failure of the test case. -/
def FailureApart (p : Placed) : Prop :=
  ∀ tag ∈ p.item.tag?, isCase tag = false ∧ (isFailure tag.localName = true → inFailure? p.around ≠ some true)

namespace OpenCase

/-- Whether a failure is open does not matter to what the items inside say. -/
theorem after_inFailure (c : OpenCase) (failing : Bool) (placed : List Placed) :
    ({ c with inFailure := failing } : OpenCase).after placed = { c.after placed with inFailure := failing } := rfl

/-- An element has the effect that the tree gives it, and leaves a failure with content open. -/
theorem element_eq_after (c : OpenCase) (around : List Tag) (item : Item) {tag : Tag} (h : item.tag? = some tag)
    (hasContent : Bool) :
    c.element tag hasContent =
      { c.after [⟨around, item⟩] with inFailure := c.inFailure || (hasContent && isFailure tag.localName) } := by
  rw [after_tag c around item h, element]
  by_cases hf : isFailure tag.localName = true
  · have hk := isSkip_eq_false_of_isFailure hf
    simp [hf, hk]
  · by_cases hk : isSkip tag.localName = true <;> simp [hf, hk]

/-- Characters have the effect that the tree gives them. -/
theorem characters_eq_after (c : OpenCase) {around : List Tag} (hc : inFailure? around = some c.inFailure)
    (item : Item) (h : item.tag? = none) : c.characters item.characters = c.after [⟨around, item⟩] := by
  rw [after_characters c around item h, characters, hc]
  by_cases hf : c.inFailure = true
  · simp [hf]
  · rw [if_neg hf, if_neg (by simpa using hf), String.append_empty]

/-- The end tag of an element leaves no failure open where none was open before the element. -/
theorem read_closed (c : OpenCase) (failing : Bool) (tag : Tag)
    (h : isFailure tag.localName = true → failing = false) :
    ({ c with inFailure := failing || isFailure tag.localName } : OpenCase).read (.closed tag.name) =
      { c with inFailure := failing } := by
  have hname : String.ofList (localPart tag.name) = tag.localName := rfl
  rw [read, hname]
  by_cases hf : isFailure tag.localName = true
  · simp [hf, h hf]
  · simp [hf]

mutual

/-- Reading the events of an item has the effect that the tree gives it. -/
theorem readAll_events {around : List Tag} (c : OpenCase) (hc : inFailure? around = some c.inFailure) :
    ∀ item : Item, (∀ p ∈ ⟨around, item⟩ :: placedInside around item, FailureApart p) →
      c.readAll item.events = c.after (⟨around, item⟩ :: placedInside around item)
  | .element tag content => by
      intro h
      obtain ⟨hitem, hinside⟩ := List.forall_mem_cons.1 h
      obtain ⟨hcase, hapart⟩ := hitem tag rfl
      rw [placedInside] at hinside ⊢
      have hopened : c.read (.opened tag) =
          { c.after [⟨around, .element tag content⟩] with
            inFailure := c.inFailure || isFailure tag.localName } :=
        c.element_eq_after around (.element tag content) rfl true
      have hin : inFailure? (tag :: around) = some (c.read (.opened tag)).inFailure := by
        rw [inFailure?, hcase, if_neg Bool.false_ne_true, hc, hopened]
        rfl
      have hcontent := readAll_eventsOf (c.read (.opened tag)) hin content hinside
      have hclosed := read_closed ((c.after [⟨around, .element tag content⟩]).after
        (placedIn (tag :: around) content)) c.inFailure tag fun hf => by simpa [hc] using hapart hf
      rw [Item.events, readAll, List.foldl_cons, ← readAll, readAll_append, hcontent, hopened, after_inFailure,
        readAll, List.foldl_cons, List.foldl_nil, hclosed, ← after_append]
      rfl
  | .empty tag => by
      intro h
      have hself := c.element_eq_after around (.empty tag) rfl false
      rw [Bool.false_and, Bool.or_false] at hself
      exact hself
  | .text raw => fun _ => c.characters_eq_after hc (.text raw) rfl
  | .cdata content => fun _ => c.characters_eq_after hc (.cdata content) rfl
  | .other => by
      intro h
      have hself := c.after_characters around .other rfl
      simp only [Item.characters, String.ofList_nil, ite_self, String.append_empty] at hself
      exact hself.symm

/-- **Reading the events of some items** has the effect that the tree gives them. -/
theorem readAll_eventsOf {around : List Tag} (c : OpenCase) (hc : inFailure? around = some c.inFailure) :
    ∀ items : List Item, (∀ p ∈ placedIn around items, FailureApart p) →
      c.readAll (eventsOf items) = c.after (placedIn around items)
  | [] => fun _ => c.after_nil.symm
  | item :: later => by
      intro h
      rw [placedIn, ← List.cons_append] at h ⊢
      obtain ⟨hitem, hlater⟩ := List.forall_mem_append.1 h
      rw [eventsOf, readAll_append, readAll_events c hc item hitem, after_append]
      exact readAll_eventsOf (c.after _) hc later hlater

end

end OpenCase

/-- Right inside a test case no failure is open. -/
theorem TestCase.inFailure?_opened (c : TestCase) (hcase : isCase c.tag = true) :
    inFailure? (c.tag :: c.around) = some c.opened.inFailure := by
  rw [inFailure?, if_pos hcase]
  rfl

/-- **The record that reading gives** is the one that the tree gives, where no failure stands in another. -/
theorem TestCase.reading_eq_record (c : TestCase) (hcase : isCase c.tag = true) (h : ∀ p ∈ c.inside, FailureApart p) :
    c.reading = c.record := by
  rw [reading, c.opened.readAll_eventsOf (c.inFailure?_opened hcase) c.content h]
  exact c.record_after

end SuiteReport.JUnit
