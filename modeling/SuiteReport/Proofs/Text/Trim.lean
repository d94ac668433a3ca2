import Mathlib.Data.List.Basic
import Mathlib.Data.List.TakeWhile
import SuiteReport.Text.Blank
/-!
# Trimming a text

Trimming goes up to the first character of the text that is not of the class, from either end. So it stops at any
such character, and it does not matter what each character is written as, as long as those of the class are written
as they are and what stands for the others neither begins nor ends with one of the class.

## Main results

* `trimEnd_append_cons`: nothing is removed in front of a character that stays.
* `trim_eq_self`: a text with no characters of the class at its ends.
* `trim_class_append`, `trim_append_class`: characters of the class around a text are removed.
* `stays_at_ends`, `exists_class_ends`: what is left has none of the class at its ends, and what is removed is of it.
* `trim_eq_nil_iff`: when nothing is left of a text.
* `trim_flatMap`: trimming a text that is written in another way.
-/

namespace SuiteReport

variable {p : Char → Bool}

/-- A text that begins with a character that stays has nothing removed at its beginning. -/
theorem trimStart_eq_self {s : List Char} (h : ∀ c ∈ s.head?, p c = false) : trimStart p s = s := by
  cases s with
  | nil => rfl
  | cons c s => exact List.dropWhile_cons_of_neg (by simp [h c rfl])

/-- A text behind which a character that stays is put still begins with one that stays, if it did so before. -/
theorem stays_of_mem_head?_append_cons {s later : List Char} {d : Char} (h : ∀ c ∈ s.head?, p c = false)
    (hd : p d = false) : ∀ c ∈ (s ++ d :: later).head?, p c = false := by
  cases s with
  | nil => simpa using hd
  | cons a s => simpa using h

/-- In front of a character that stays nothing is removed from the end. -/
theorem trimEnd_append_cons {c : Char} (hc : p c = false) (s later : List Char) :
    trimEnd p (s ++ c :: later) = s ++ c :: trimEnd p later := by
  have hkeep : (c :: s.reverse).dropWhile p = c :: s.reverse := List.dropWhile_cons_of_neg (by simp [hc])
  rw [trimEnd, List.reverse_append, List.reverse_cons, List.append_assoc, List.singleton_append,
    List.dropWhile_append, hkeep, trimEnd]
  split
  next h => simp [List.isEmpty_iff.1 h]
  next => simp

/-- A text that ends with a character that stays has nothing removed at its end. -/
theorem trimEnd_eq_self {s : List Char} (h : ∀ c ∈ s.getLast?, p c = false) : trimEnd p s = s := by
  rw [trimEnd, ← trimStart, trimStart_eq_self (by rwa [List.head?_reverse]), List.reverse_reverse]

/-- A text without characters of the class stays as it is. -/
theorem trim_eq_self {s : List Char} (h : ∀ c ∈ s, p c = false) : trim p s = s := by
  rw [trim, trimStart_eq_self fun c hc => h c (List.mem_of_head? hc),
    trimEnd_eq_self fun c hc => h c (List.mem_of_getLast? hc)]

/-- A text stays as it is if the characters at its ends stay. -/
theorem trim_eq_self_of_ends {s : List Char} (hfirst : ∀ c ∈ s.head?, p c = false)
    (hlast : ∀ c ∈ s.getLast?, p c = false) : trim p s = s := by
  rw [trim, trimStart_eq_self hfirst, trimEnd_eq_self hlast]

/-! ### Characters of the class around a text -/

/-- Characters of the class in front of a text are removed. -/
theorem trim_class_append {before : List Char} (h : ∀ c ∈ before, p c = true) (s : List Char) :
    trim p (before ++ s) = trim p s := by
  rw [trim, trimStart, List.dropWhile_append_of_pos h]
  rfl

/-- Characters of the class behind a text are removed from its end. -/
theorem trimEnd_append_class {behind : List Char} (h : ∀ c ∈ behind, p c = true) (s : List Char) :
    trimEnd p (s ++ behind) = trimEnd p s := by
  rw [trimEnd, List.reverse_append,
    List.dropWhile_append_of_pos fun c hc => h c (List.mem_reverse.1 hc), trimEnd]

/-- Characters of the class behind a text are removed. -/
theorem trim_append_class {behind : List Char} (h : ∀ c ∈ behind, p c = true) (s : List Char) :
    trim p (s ++ behind) = trim p s := by
  rw [trim, trimStart, List.dropWhile_append]
  split
  next hs =>
      -- nothing of the text itself stays either
      rw [trim, trimStart, List.isEmpty_iff.1 hs, List.dropWhile_eq_nil_iff.2 h]
  next => rw [trimEnd_append_class h, trim, trimStart]

/-! ### What is left -/

/-- What is left of a list when members of a class are removed at both ends has none of them at its ends. -/
theorem stays_at_ends {α : Type} (p : α → Bool) (l : List α) :
    (∀ a ∈ ((l.dropWhile p).reverse.dropWhile p).reverse.head?, p a = false) ∧
      ∀ a ∈ ((l.dropWhile p).reverse.dropWhile p).reverse.getLast?, p a = false := by
  have first (l : List α) : ∀ a ∈ (l.dropWhile p).head?, p a = false := by
    intro a ha
    have stopped := List.head?_dropWhile_not p l
    rw [ha] at stopped
    simpa using stopped
  -- what is left begins like the list without its leading members of the class
  have begins : ((l.dropWhile p).reverse.dropWhile p).reverse <+: l.dropWhile p := by
    rw [← List.reverse_suffix, List.reverse_reverse]
    exact List.dropWhile_suffix p
  obtain ⟨removed, hremoved⟩ := begins
  refine ⟨?_, ?_⟩
  · intro a ha
    refine first l a ?_
    rw [← hremoved, List.head?_append, ha]
    rfl
  · rw [List.getLast?_reverse]
    exact first _

/-- What is removed from a list at both ends is of the class. -/
theorem exists_class_ends {α : Type} (p : α → Bool) (l : List α) :
    ∃ before behind, l = before ++ ((l.dropWhile p).reverse.dropWhile p).reverse ++ behind ∧
      (∀ a ∈ before, p a = true) ∧ ∀ a ∈ behind, p a = true := by
  refine ⟨l.takeWhile p, ((l.dropWhile p).reverse.takeWhile p).reverse, ?_, fun a => List.mem_takeWhile_imp,
    fun a h => List.mem_takeWhile_imp (List.mem_reverse.1 h)⟩
  rw [List.append_assoc, ← List.reverse_append, List.takeWhile_append_dropWhile, List.reverse_reverse,
    List.takeWhile_append_dropWhile]

/-- What is left of a text has none of the class at its ends. -/
theorem stays_at_ends_trim (p : Char → Bool) (s : List Char) :
    (∀ c ∈ (trim p s).head?, p c = false) ∧ ∀ c ∈ (trim p s).getLast?, p c = false := stays_at_ends p s

/-- What is removed from a text is of the class. -/
theorem exists_trim (p : Char → Bool) (s : List Char) :
    ∃ before behind, s = before ++ trim p s ++ behind ∧ (∀ c ∈ before, p c = true) ∧ ∀ c ∈ behind, p c = true :=
  exists_class_ends p s

/-- A character that is left was in the text. -/
theorem mem_of_mem_trimStart {s : List Char} {c : Char} (h : c ∈ trimStart p s) : c ∈ s :=
  (List.dropWhile_suffix p).mem h

/-- A character that is left was in the text. -/
theorem mem_of_mem_trim {s : List Char} {c : Char} (h : c ∈ trim p s) : c ∈ s := by
  rw [trim, trimEnd, List.mem_reverse] at h
  exact mem_of_mem_trimStart (List.mem_reverse.1 ((List.dropWhile_suffix p).mem h))

/-- Nothing is left of a text exactly if all of it is of the class. -/
theorem trim_eq_nil_iff {s : List Char} : trim p s = [] ↔ ∀ c ∈ s, p c = true := by
  rw [trim, trimEnd, trimStart, List.reverse_eq_nil_iff, List.dropWhile_eq_nil_iff]
  constructor
  · intro h c hc
    rw [← List.takeWhile_append_dropWhile (p := p) (l := s)] at hc
    rcases List.mem_append.1 hc with hc | hc
    · exact List.mem_takeWhile_imp hc
    · exact h c (List.mem_reverse.2 hc)
  · intro h c hc
    exact h c ((List.dropWhile_suffix p).mem (List.mem_reverse.1 hc))

/-! ### Texts that are written in another way -/

/-- Removing the beginning of a text that is written in another way. -/
theorem trimStart_flatMap {write : Char → List Char} (hclass : ∀ c, p c = true → write c = [c])
    (hother : ∀ c, p c = false → write c ≠ [] ∧ ∀ d ∈ (write c).head?, p d = false) (s : List Char) :
    trimStart p (s.flatMap write) = (trimStart p s).flatMap write := by
  induction s with
  | nil => rfl
  | cons c s ih =>
      rw [List.flatMap_cons]
      by_cases hc : p c = true
      · rw [hclass c hc, List.singleton_append, trimStart, List.dropWhile_cons_of_pos hc, ← trimStart, ih,
          trimStart, trimStart, List.dropWhile_cons_of_pos hc]
      · have hc := Bool.eq_false_iff.2 hc
        obtain ⟨hne, hhead⟩ := hother c hc
        have hkeep : trimStart p (c :: s) = c :: s := trimStart_eq_self (by simpa using hc)
        rw [hkeep, List.flatMap_cons, trimStart_eq_self]
        rwa [List.head?_append_of_ne_nil _ hne]

/-- **Trimming a text that is written in another way**: each character of the class is written as it is, and what
stands for any other is not empty and has none of the class at its ends. -/
theorem trim_flatMap {write : Char → List Char} (hclass : ∀ c, p c = true → write c = [c])
    (hother : ∀ c, p c = false →
      write c ≠ [] ∧ (∀ d ∈ (write c).head?, p d = false) ∧ ∀ d ∈ (write c).getLast?, p d = false) (s : List Char) :
    trim p (s.flatMap write) = (trim p s).flatMap write := by
  have hstart := trimStart_flatMap hclass (fun c hc => ⟨(hother c hc).1, (hother c hc).2.1⟩) s
  -- from the end, each character is written backwards
  have hend := @trimStart_flatMap p (fun c => (write c).reverse) (fun c hc => by rw [hclass c hc]; rfl)
    (fun c hc => ⟨by simpa using (hother c hc).1, by simpa using (hother c hc).2.2⟩) (trimStart p s).reverse
  rw [trim, hstart, trimEnd, List.reverse_flatMap, ← trimStart]
  simp only [Function.comp_def, hend, List.reverse_flatMap, List.reverse_reverse]
  rfl

end SuiteReport
