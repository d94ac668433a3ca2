import SuiteReport.Proofs.Markup.Item
/-!
# Documents that end early

The end of a document is no fault where elements are still open. Such a document is no list of items; it is a
draft of one: items, a start tag without an end tag, items inside the element that the tag begins, perhaps another
such tag, and so on. Every document that is read without a fault is a draft.

## Main definitions

* `Draft`: a document in which the innermost elements at its end may lack their end tags.
* `Draft.ofDocument?`: the draft that a document is.
* `Draft.placed`: every item in a draft, at any depth, with the tags of the elements around it.
* `Draft.unclosedElements`: the elements whose end tags are missing.
* `Draft.completed`: the items of a draft with the missing end tags put in at its end, and `Draft.openElements`, the
  elements that are closed there only.

## Main results

* `Draft.ofDocument?_eq_some_iff`: a document is a draft exactly if it is read without a fault and its events are
  those of the draft.
* `Draft.exists_events`: what is read up to a fault or to the end of a document is a draft.
* `Draft.eventsOf_completed`: completing a draft adds the missing end tags behind its events, and nothing else.
-/

namespace SuiteReport.Markup

/-- A document that may end inside some elements. -/
inductive Draft where
  /-- Items, in which every element has its end tag. -/
  | closed (items : List Item)
  /-- Items, a start tag whose end tag is missing, and what stands behind it. -/
  | unclosed (before : List Item) (tag : Tag) (inside : Draft)
deriving Repr

namespace Draft

/-- The events of a draft. -/
def events : Draft → List Event
  | closed items => Item.eventsOf items
  | unclosed before tag inside => Item.eventsOf before ++ .opened tag :: inside.events

/-- The items in a draft, at any depth and in the order of the document, where the draft stands inside the elements
`around`. An element without an end tag is no item, but it is around what stands behind its tag. -/
def placed (around : List Tag) : Draft → List Item.Placed
  | closed items => Item.placedIn around items
  | unclosed before tag inside => Item.placedIn around before ++ inside.placed (tag :: around)

/-- The elements of a draft whose end tags are missing, outermost first. Each stands in its place, without what was
read behind its tag. -/
def unclosedElements (around : List Tag) : Draft → List Item.Placed
  | closed _ => []
  | unclosed _ tag inside => ⟨around, .element tag []⟩ :: inside.unclosedElements (tag :: around)

/-- The items of a draft with the missing end tags put in at its end: what is behind a start tag without an end tag is
the content of its element. -/
def completed : Draft → List Item
  | closed items => items
  | unclosed before tag inside => before ++ [.element tag inside.completed]

/-- The end tags that a draft lacks, in the order in which they are put in. -/
def missingEnds : Draft → List Event
  | closed _ => []
  | unclosed _ tag inside => inside.missingEnds ++ [.closed tag.name]

/-- The elements of a draft that are closed at its end only, outermost first, where the draft stands inside the elements
`around`. Each stands in its place and has everything behind its tag as its content. -/
def openElements (around : List Tag) : Draft → List Item.Placed
  | closed _ => []
  | unclosed _ tag inside => ⟨around, .element tag inside.completed⟩ :: inside.openElements (tag :: around)

/-- The draft with an item before everything else. -/
def cons (item : Item) : Draft → Draft
  | closed items => closed (item :: items)
  | unclosed before tag inside => unclosed (item :: before) tag inside

end Draft

/-- What some events make up when the end tags whose start tags stand further to the left are left alone. -/
inductive Levels where
  /-- No such end tag is left: a draft. -/
  | last (draft : Draft)
  /-- The items before the first such end tag, and what stands behind it. -/
  | ended (level : List Item) (later : Levels)

namespace Levels

/-- The same with an item before everything else. -/
def cons (item : Item) : Levels → Levels
  | last draft => last (draft.cons item)
  | ended level later => ended (item :: level) later

/-- What some events make up. A start tag begins an item if its end tag follows. -/
def ofEvents : List Event → Levels
  | [] => last (.closed [])
  | .opened tag :: rest =>
    match ofEvents rest with
    | last draft => last (.unclosed [] tag draft)
    | ended content later => later.cons (.element tag content)
  | .closed _ :: rest => ended [] (ofEvents rest)
  | .empty tag :: rest => (ofEvents rest).cons (.empty tag)
  | .text raw :: rest => (ofEvents rest).cons (.text raw)
  | .cdata content :: rest => (ofEvents rest).cons (.cdata content)
  | .other :: rest => (ofEvents rest).cons .other

/-- The events that something is made up of, where the end tags that are left have the given names. -/
def events : List (List Char) → Levels → List Event
  | _, last draft => draft.events
  | [], ended level _ => Item.eventsOf level
  | name :: names, ended level later => Item.eventsOf level ++ .closed name :: later.events names

/-- The number of end tags that are left. -/
def ends : Levels → Nat
  | last _ => 0
  | ended _ later => later.ends + 1

end Levels

namespace Draft

/-- The draft that a document is, if it is read without a fault. -/
def ofDocument? (document : String) : Option Draft :=
  let reading := Reading.ofString document
  match reading.fault, Levels.ofEvents reading.events with
  | none, .last draft => some draft
  | _, _ => none

end Draft

/-! ### Drafts and events -/

/-- The events of an item stand before those of the draft that follows. -/
theorem Draft.events_cons (item : Item) (d : Draft) : (d.cons item).events = item.events ++ d.events := by
  cases d with
  | closed items => rfl
  | unclosed before tag inside => rw [cons, events, Item.eventsOf, List.append_assoc, events]

/-- Items in front of a closed draft belong to it. -/
theorem Draft.foldr_cons_closed (items later : List Item) :
    items.foldr Draft.cons (closed later) = closed (items ++ later) := by
  induction items with
  | nil => rfl
  | cons item items ih => rw [List.foldr_cons, ih]; rfl

/-- Items in front of an unclosed draft stand before its tag. -/
theorem Draft.foldr_cons_unclosed (items before : List Item) (tag : Tag) (inside : Draft) :
    items.foldr Draft.cons (unclosed before tag inside) = unclosed (items ++ before) tag inside := by
  induction items with
  | nil => rfl
  | cons item items ih => rw [List.foldr_cons, ih]; rfl

namespace Levels

/-- An item ends nothing. -/
@[simp]
theorem ends_cons (item : Item) (l : Levels) : (l.cons item).ends = l.ends := by
  cases l <;> rfl

/-- The events of an item stand before those of what follows. -/
theorem events_cons (item : Item) (names : List (List Char)) (l : Levels) :
    (l.cons item).events names = item.events ++ l.events names := by
  cases l with
  | last draft => cases names <;> exact draft.events_cons item
  | ended level later =>
      cases names with
      | nil => rfl
      | cons name names => rw [cons, events, Item.eventsOf, List.append_assoc, events]

/-- Where no end tag is at fault, the events are those of what they make up, and as many end tags are left as there
are elements open to their left, or fewer. The induction is on the events, with the open elements free. -/
theorem events_ofEvents {names : List (List Char)} {es : List Event} (h : (Event.nest names es).fault = none) :
    (ofEvents es).events names = es ∧ (ofEvents es).ends ≤ names.length := by
  induction es generalizing names with
  | nil => exact ⟨by cases names <;> rfl, Nat.zero_le _⟩
  | cons e rest ih =>
      cases e with
      | opened tag =>
          obtain ⟨made, length⟩ := @ih (tag.name :: names) h
          rw [ofEvents]
          cases hrest : ofEvents rest with
          | last draft =>
              rw [hrest] at made
              exact ⟨by cases names <;> exact congrArg (Event.opened tag :: ·) made, Nat.zero_le _⟩
          | ended content later =>
              rw [hrest] at made length
              refine ⟨?_, by simpa [ends] using length⟩
              -- the end tag behind the content is the one of this element
              rw [events_cons, Item.events, List.cons_append, List.append_assoc, List.singleton_append]
              exact congrArg (Event.opened tag :: ·) made
      | closed name =>
          cases names with
          | nil => simp [Event.nest] at h
          | cons expected names =>
              by_cases hname : name = expected
              · subst hname
                simp only [Event.nest, if_true] at h
                obtain ⟨made, length⟩ := ih h
                exact ⟨congrArg (Event.closed name :: ·) made, Nat.succ_le_succ length⟩
              · simp [Event.nest, hname] at h
      | _ =>
          obtain ⟨made, length⟩ := ih h
          refine ⟨?_, by simpa [ofEvents] using length⟩
          rw [ofEvents, events_cons, made]
          rfl

/-- Items in front of an end tag stand before it. -/
theorem foldr_cons_ended (items level : List Item) (later : Levels) :
    items.foldr cons (ended level later) = ended (items ++ level) later := by
  induction items with
  | nil => rfl
  | cons item items ih => rw [List.foldr_cons, ih]; rfl

mutual

/-- The events of an item make it up again, in front of whatever follows. -/
theorem ofEvents_events (rest : List Event) :
    ∀ item : Item, ofEvents (item.events ++ rest) = (ofEvents rest).cons item
  | .element tag content => by
      rw [Item.events, List.cons_append, List.append_assoc, ofEvents, ofEvents_eventsOf, List.singleton_append,
        ofEvents, foldr_cons_ended, List.append_nil]
  | .empty tag => rfl
  | .text raw => rfl
  | .cdata content => rfl
  | .other => rfl

/-- The events of several items make them up again, in front of whatever follows. -/
theorem ofEvents_eventsOf (rest : List Event) :
    ∀ items : List Item, ofEvents (Item.eventsOf items ++ rest) = items.foldr cons (ofEvents rest)
  | [] => rfl
  | item :: later => by
      rw [Item.eventsOf, List.append_assoc, ofEvents_events, ofEvents_eventsOf rest later, List.foldr_cons]

end

/-- Items in front of a draft belong to it. -/
theorem foldr_cons_last (items : List Item) (draft : Draft) :
    items.foldr cons (last draft) = last (items.foldr Draft.cons draft) := by
  induction items with
  | nil => rfl
  | cons item items ih => rw [List.foldr_cons, ih]; rfl

/-- The events of a draft make it up again. -/
theorem ofEvents_draft (d : Draft) : ofEvents d.events = last d := by
  induction d with
  | closed items =>
      have made := ofEvents_eventsOf [] items
      rw [List.append_nil] at made
      rw [Draft.events, made, ofEvents, foldr_cons_last, Draft.foldr_cons_closed, List.append_nil]
  | unclosed before tag inside ih =>
      rw [Draft.events, ofEvents_eventsOf, ofEvents, ih]
      simp only [foldr_cons_last, Draft.foldr_cons_unclosed, List.append_nil]

end Levels

namespace Draft

/-- **Documents are drafts.** A document is the given draft exactly if it is read without a fault and its events are
those of the draft. -/
theorem ofDocument?_eq_some_iff {document : String} {d : Draft} :
    ofDocument? document = some d ↔ Reading.ofString document = ⟨d.events, none⟩ := by
  constructor
  · intro h
    rw [ofDocument?] at h
    split at h
    · rename_i draft nofault hlast
      obtain rfl := Option.some.inj h
      obtain ⟨made, -⟩ := Levels.events_ofEvents (Item.nest_events_of_fault nofault)
      rw [hlast] at made
      have made : draft.events = (Reading.ofString document).events := made
      rw [made, ← nofault]
    · cases h
  · intro h
    rw [ofDocument?, h]
    simp [Levels.ofEvents_draft]

/-- A document whose events are those of a draft, read without a fault, is that draft. -/
theorem ofDocument?_of_events {document : String} {d : Draft}
    (h : (Reading.ofString document).events = d.events ∧ (Reading.ofString document).fault = none) :
    ofDocument? document = some d :=
  ofDocument?_eq_some_iff.2 (by rw [← h.1, ← h.2])

/-- What was read up to an end tag at fault has no end tag at fault. -/
theorem fault_nest_events_nest {openNames : List (List Char)} {es : List Event} :
    (Event.nest openNames (Event.nest openNames es).events).fault = none := by
  induction es generalizing openNames with
  | nil => rfl
  | cons e rest ih =>
      cases e with
      | closed name =>
          cases openNames with
          | nil => rfl
          | cons expected openNames => by_cases hname : name = expected <;> simp [Event.nest, hname, ih]
      | _ => simp [Event.nest, ih]

/-- What is read of a document, up to a fault or to its end, is a draft. -/
theorem exists_events (document : String) : ∃ d : Draft, (Reading.ofString document).events = d.events := by
  have nofault : (Event.nest [] (Reading.ofString document).events).fault = none := fault_nest_events_nest
  obtain ⟨made, length⟩ := Levels.events_ofEvents nofault
  cases hlast : Levels.ofEvents (Reading.ofString document).events with
  | last draft => exact ⟨draft, by rw [← made, hlast]; rfl⟩
  | ended level later => simp [hlast, Levels.ends] at length

/-- What is read without a fault is a draft. -/
theorem exists_ofDocument? {document : String} (h : (Reading.ofString document).fault = none) :
    ∃ d, ofDocument? document = some d := by
  obtain ⟨d, hd⟩ := exists_events document
  exact ⟨d, ofDocument?_eq_some_iff.2 (by rw [← hd, ← h])⟩

/-- A document in which every element is closed is a draft without a missing end tag. -/
theorem ofDocument?_closed {document : String} {items : List Item} :
    ofDocument? document = some (.closed items) ↔ Item.ofDocument? document = some items := by
  rw [ofDocument?_eq_some_iff, Item.ofDocument?_eq_some_iff]
  rfl

/-! ### Completed drafts -/

/-- Completing a draft adds the missing end tags behind its events, and nothing else. -/
theorem eventsOf_completed (d : Draft) : Item.eventsOf d.completed = d.events ++ d.missingEnds := by
  induction d with
  | closed items => exact (List.append_nil _).symm
  | unclosed before tag inside ih =>
      rw [completed, Item.eventsOf_append, Item.eventsOf, Item.events, ih, Item.eventsOf, List.append_nil, events,
        missingEnds]
      simp only [List.append_assoc, List.cons_append]

/-- The elements around a draft stand around every item in it. -/
theorem mem_around_of_mem_placed {around : List Tag} {p : Item.Placed} {outer : Tag} {d : Draft}
    (houter : outer ∈ around) (h : p ∈ d.placed around) : outer ∈ p.around := by
  induction d generalizing around with
  | closed items => exact Item.mem_around_of_mem_placedIn houter items h
  | unclosed before tag inside ih =>
      rcases List.mem_append.1 h with h | h
      · exact Item.mem_around_of_mem_placedIn houter before h
      · exact ih (List.mem_cons_of_mem tag houter) h

end Draft

end SuiteReport.Markup
