import Mathlib.Data.List.Basic
import SuiteReport.Markup.Event
/-!
# Documents as trees

A well-formed document is a list of items: elements with the items inside them, empty elements, texts, CDATA
sections and what is passed over. Its events are those of the items, one after the other, where the events of an
element stand between its start tag and an end tag with its name. This module builds the items of a document
from its events and proves that nothing is lost.

## Main definitions

* `Item`: a piece of a document with what it contains, and `Item.eventsOf`, the events of several items.
* `Item.ofDocument?`: the items of a document, if it is well formed.
* `Item.placedIn`: every item in a document, at any depth, with the tags of the elements around it.

## Main results

* `Item.ofDocument?_eq_some_iff`: a document is well formed with the given items exactly if it is read without a
  fault and its events are theirs.
-/

namespace SuiteReport.Markup

/-- A piece of a document, with what it contains. -/
inductive Item where
  /-- An element with a start tag and an end tag. -/
  | element (tag : Tag) (content : List Item)
  /-- An element with an empty-element tag. -/
  | empty (tag : Tag)
  /-- A text, trimmed, in which references are not expanded. -/
  | text (raw : List Char)
  /-- A CDATA section. -/
  | cdata (content : List Char)
  /-- A comment, a processing instruction, a declaration or a document type. -/
  | other
deriving Repr

namespace Item

mutual

/-- The events of an item. -/
def events : Item → List Event
  | element tag content => .opened tag :: (eventsOf content ++ [.closed tag.name])
  | empty tag => [.empty tag]
  | text raw => [.text raw]
  | cdata content => [.cdata content]
  | other => [.other]

/-- The events of several items, one after the other. -/
def eventsOf : List Item → List Event
  | [] => []
  | item :: later => item.events ++ eventsOf later

end

/-- The items that some events make up when the end tags whose start tags stand further to the left are left
alone: the items before the first such end tag, and the items behind each of them up to the next. There are none
if an element is not closed. -/
def levels? : List Event → Option (List Item × List (List Item))
  | [] => some ([], [])
  | .opened tag :: rest =>
    match levels? rest with
    | some (content, level :: levels) => some (element tag content :: level, levels)
    | _ => none
  | .closed _ :: rest => (levels? rest).map fun (level, levels) => ([], level :: levels)
  | .empty tag :: rest => (levels? rest).map fun (level, levels) => (empty tag :: level, levels)
  | .text raw :: rest => (levels? rest).map fun (level, levels) => (text raw :: level, levels)
  | .cdata content :: rest => (levels? rest).map fun (level, levels) => (cdata content :: level, levels)
  | .other :: rest => (levels? rest).map fun (level, levels) => (other :: level, levels)

/-- The items of a document that is read without a fault and in which every element is closed. -/
def ofDocument? (document : String) : Option (List Item) :=
  let reading := Reading.ofString document
  match reading.fault, levels? reading.events with
  | none, some (items, []) => some items
  | _, _ => none

/-! ### Items and events -/

mutual

/-- The events of an item make it up again, in front of whatever follows. -/
theorem levels?_events (rest : List Event) :
    ∀ item : Item, levels? (item.events ++ rest) =
      (levels? rest).map fun (level, levels) => (item :: level, levels)
  | element tag content => by
      rw [events, List.cons_append, List.append_assoc, levels?, levels?_eventsOf, List.singleton_append, levels?]
      cases levels? rest with
      | none => rfl
      | some l => simp
  | empty tag => rfl
  | text raw => rfl
  | cdata content => rfl
  | other => rfl

/-- The events of several items make them up again, in front of whatever follows. -/
theorem levels?_eventsOf (rest : List Event) :
    ∀ items : List Item, levels? (eventsOf items ++ rest) =
      (levels? rest).map fun (level, levels) => (items ++ level, levels)
  | [] => by
      rw [eventsOf, List.nil_append]
      cases levels? rest <;> rfl
  | item :: later => by
      rw [eventsOf, List.append_assoc, levels?_events, levels?_eventsOf rest later, Option.map_map]
      rfl

end

theorem eventsOf_append (items later : List Item) : eventsOf (items ++ later) = eventsOf items ++ eventsOf later := by
  induction items with
  | nil => rfl
  | cons item items ih => rw [List.cons_append, eventsOf, eventsOf, ih, List.append_assoc]

mutual

/-- Behind the events of an item the same elements are open as before it. -/
theorem nest_events (openNames : List (List Char)) (rest : List Event) :
    ∀ item : Item, Event.nest openNames (item.events ++ rest) =
      ⟨item.events ++ (Event.nest openNames rest).events, (Event.nest openNames rest).fault⟩
  | element tag content => by
      simp [events, Event.nest, nest_eventsOf (tag.name :: openNames) (.closed tag.name :: rest) content]
  | empty _ | text _ | cdata _ | other => rfl

/-- Behind the events of several items the same elements are open as before them. -/
theorem nest_eventsOf (openNames : List (List Char)) (rest : List Event) :
    ∀ items : List Item, Event.nest openNames (eventsOf items ++ rest) =
      ⟨eventsOf items ++ (Event.nest openNames rest).events, (Event.nest openNames rest).fault⟩
  | [] => rfl
  | item :: later => by
      rw [eventsOf, List.append_assoc, nest_events openNames, nest_eventsOf openNames rest later]
      simp only [List.append_assoc]

end

/-- What is read without a fault is read to its end. -/
theorem events_nest {openNames : List (List Char)} {events : List Event}
    (h : (Event.nest openNames events).fault = none) : (Event.nest openNames events).events = events := by
  induction events generalizing openNames with
  | nil => rfl
  | cons e rest ih =>
      cases e with
      | closed name =>
          cases openNames with
          | nil => simp [Event.nest] at h
          | cons expected openNames =>
              by_cases hn : name = expected
              · simp only [Event.nest, hn, if_true] at h ⊢
                rw [ih h]
              · simp [Event.nest, hn] at h
      | _ =>
          simp only [Event.nest] at h ⊢
          rw [ih h]

/-- Where no end tag is at fault, the events are those of the items that they make up: first the items before any
end tag of an open element, then each such end tag with the items behind it. -/
theorem eq_eventsOf_of_levels? {openNames : List (List Char)} {events : List Event} {level : List Item}
    {levels : List (List Item)} (h : (Event.nest openNames events).fault = none)
    (hlevels : levels? events = some (level, levels)) :
    events = eventsOf level ++
      (openNames.zip levels).flatMap fun (name, level) => .closed name :: eventsOf level := by
  induction events generalizing openNames level levels with
  | nil =>
      simp only [levels?, Option.some.injEq, Prod.mk.injEq] at hlevels
      obtain ⟨rfl, rfl⟩ := hlevels
      simp [eventsOf]
  | cons e rest ih =>
      cases e with
      | opened tag =>
          rw [levels?] at hlevels
          split at hlevels
          · rename_i content next levels' hrest
            cases hlevels
            -- the next level of the rest goes on behind the end tag of this element
            rw [eventsOf, events, ih h hrest]
            simp
          · cases hlevels
      | closed name =>
          cases openNames with
          | nil => simp [Event.nest] at h
          | cons expected openNames =>
              by_cases hname : name = expected
              · subst hname
                simp only [Event.nest, if_true] at h
                simp only [levels?, Option.map_eq_some_iff, Prod.exists, Prod.mk.injEq] at hlevels
                obtain ⟨next, levels', hrest, rfl, rfl⟩ := hlevels
                rw [List.zip_cons_cons, List.flatMap_cons, eventsOf, List.nil_append, List.cons_append,
                  ← ih h hrest]
              · simp [Event.nest, hname] at h
      | _ =>
          simp only [levels?, Option.map_eq_some_iff, Prod.exists, Prod.mk.injEq] at hlevels
          obtain ⟨later, levels', hrest, rfl, rfl⟩ := hlevels
          rw [eventsOf, events, List.singleton_append, List.cons_append, ← ih h hrest]

/-- The events of a document that is read without a fault have no end tag at fault. -/
theorem nest_events_of_fault {document : String} (h : (Reading.ofString document).fault = none) :
    (Event.nest [] (Reading.ofString document).events).fault = none := by
  obtain ⟨nested, -⟩ := Option.or_eq_none_iff.1 h
  rw [Reading.ofString, events_nest nested]
  exact nested

/-- **Well-formed documents.** A document has the given items exactly if it is read without a fault and its events
are theirs. -/
theorem ofDocument?_eq_some_iff {document : String} {items : List Item} :
    ofDocument? document = some items ↔ Reading.ofString document = ⟨eventsOf items, none⟩ := by
  constructor
  · intro h
    rw [ofDocument?] at h
    split at h
    · rename_i nofault hlevels
      cases h
      have made := eq_eventsOf_of_levels? (nest_events_of_fault nofault) hlevels
      rw [List.zip_nil_right, List.flatMap_nil, List.append_nil] at made
      rw [← made, ← nofault]
    · cases h
  · intro h
    have made := levels?_eventsOf [] items
    rw [List.append_nil] at made
    rw [ofDocument?, h]
    simp [made, levels?]

/-- The same in parts, each of which can be computed. -/
theorem ofDocument?_of_events {document : String} {items : List Item}
    (h : (Reading.ofString document).events = eventsOf items ∧ (Reading.ofString document).fault = none) :
    ofDocument? document = some items :=
  ofDocument?_eq_some_iff.2 (by rw [← h.1, ← h.2])

/-! ### Items in their places -/

/-- An item with the tags of the elements around it, innermost first. -/
structure Placed where
  /-- The tags of the elements that the item stands in. -/
  around : List Tag
  /-- The item. -/
  item : Item
deriving Repr

mutual

/-- The items inside an item, at any depth, where the item itself stands inside the elements `around`. -/
def placedInside (around : List Tag) : Item → List Placed
  | element tag content => placedIn (tag :: around) content
  | _ => []

/-- The items of a list and those inside them, at any depth and in the order of the document, where the list
stands inside the elements `around`. -/
def placedIn (around : List Tag) : List Item → List Placed
  | [] => []
  | item :: later => ⟨around, item⟩ :: (placedInside around item ++ placedIn around later)

end

theorem placedIn_append (around : List Tag) (items later : List Item) :
    placedIn around (items ++ later) = placedIn around items ++ placedIn around later := by
  induction items with
  | nil => rfl
  | cons item items ih => rw [List.cons_append, placedIn, placedIn, ih, List.cons_append, List.append_assoc]

/-- The tag of an element. -/
def tag? : Item → Option Tag
  | element tag _ => some tag
  | empty tag => some tag
  | _ => none

/-- What stands between the tags of an element. -/
def content : Item → List Item
  | element _ content => content
  | _ => []

/-- The characters of a text with its references expanded, or of a CDATA section. -/
def characters : Item → List Char
  | text raw => (expand? raw).getD []
  | cdata content => content
  | _ => []

/-- Inside an element stands its content. -/
theorem placedInside_eq {item : Item} {tag : Tag} (h : item.tag? = some tag) (around : List Tag) :
    placedInside around item = placedIn (tag :: around) item.content := by
  cases item <;> cases h <;> rfl

/-- An element by itself has no characters. -/
theorem characters_eq_nil {item : Item} {tag : Tag} (h : item.tag? = some tag) : item.characters = [] := by
  cases item <;> first | rfl | cases h

/-- Whether the references of an item by itself can be expanded. -/
def expands : Item → Bool
  | text raw => (expand? raw).isSome
  | _ => true

mutual

/-- The elements around an item stand around everything inside it. -/
theorem mem_around_of_mem_placedInside {around : List Tag} {p : Placed} {outer : Tag} (houter : outer ∈ around) :
    ∀ item : Item, p ∈ placedInside around item → outer ∈ p.around
  | element tag content => mem_around_of_mem_placedIn (List.mem_cons_of_mem tag houter) content
  | empty _ | text _ | cdata _ | other => fun h => absurd h List.not_mem_nil

/-- The elements around a list stand around everything in it. -/
theorem mem_around_of_mem_placedIn {around : List Tag} {p : Placed} {outer : Tag} (houter : outer ∈ around) :
    ∀ items : List Item, p ∈ placedIn around items → outer ∈ p.around
  | [] => fun h => absurd h List.not_mem_nil
  | item :: later => by
      intro h
      rw [placedIn] at h
      rcases List.mem_cons.1 h with rfl | h
      · exact houter
      rcases List.mem_append.1 h with h | h
      · exact mem_around_of_mem_placedInside houter item h
      · exact mem_around_of_mem_placedIn houter later h

end

end Item

end SuiteReport.Markup
