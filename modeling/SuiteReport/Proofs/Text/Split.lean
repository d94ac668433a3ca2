import Mathlib.Data.List.Basic
import SuiteReport.Text.Lines
/-!
# Splitting a text

Splitting a text at a character gives one part more than the character occurs, and splitting a text that is put
together around the character gives the parts of what it was put together from.

## Main results

* `splitOn_eq`: the parts are those of the library's function.
* `length_splitOn`: the number of parts.
* `flatMap_splitOn_eq_self_iff`: splitting some texts gives them back exactly if the character occurs in none.
* `splitOn_flatMap_ended`: splitting texts that the character ends.
* `lines_append_newline`, `lines_eq_singleton`: the lines of a text, one by one.
-/

namespace SuiteReport

/-- The parts of a text are those that the library's function gives. -/
theorem splitOn_eq (sep : Char) (s : List Char) : splitOn sep s = s.splitOn sep := by
  induction s with
  | nil => rfl
  | cons c rest ih =>
      rw [splitOn, List.splitOn_cons_eq_if_modifyHead, ih]
      by_cases hc : c = sep
      · simp [hc]
      · cases hrest : rest.splitOn sep with
        | nil => exact absurd hrest (List.splitOn_ne_nil _ _)
        | cons part parts => simp [hc]

/-- There is one part more than there are occurrences. -/
theorem length_splitOn (sep : Char) (s : List Char) : (splitOn sep s).length = s.count sep + 1 := by
  induction s with
  | nil => rfl
  | cons c rest ih =>
      rw [splitOn]
      by_cases hc : c = sep
      · simp [hc, ih]
      · rw [if_neg hc, List.count_cons_of_ne hc, ← ih]
        cases hrest : splitOn sep rest with
        | nil => simp [hrest] at ih
        | cons part parts => simp

/-- A text put together around the character has the parts of both sides. -/
theorem splitOn_append_cons (sep : Char) (s later : List Char) :
    splitOn sep (s ++ sep :: later) = splitOn sep s ++ splitOn sep later := by
  rw [splitOn_eq, splitOn_eq, splitOn_eq, List.splitOn_append_cons_self]

/-- A text without the character is its own only part. -/
theorem splitOn_eq_singleton {sep : Char} {s : List Char} (h : sep ∉ s) : splitOn sep s = [s] := by
  rw [splitOn_eq, List.splitOn_eq_singleton h]

/-- The parts tell the text. -/
theorem splitOn_injective (sep : Char) : Function.Injective (splitOn sep) := by
  intro s t h
  rw [splitOn_eq, splitOn_eq] at h
  have joined (u : List Char) : [sep].intercalate (u.splitOn sep) = u := List.intercalate_splitOn sep
  rw [← joined s, h, joined]

/-- The character occurs in no part. -/
theorem notMem_of_mem_splitOn {sep : Char} {s part : List Char} (h : part ∈ splitOn sep s) : sep ∉ part := by
  induction s generalizing part with
  | nil =>
      obtain rfl := List.mem_singleton.1 h
      exact List.not_mem_nil
  | cons c rest ih =>
      rw [splitOn] at h
      by_cases hc : c = sep
      · rw [if_pos hc] at h
        rcases List.mem_cons.1 h with rfl | h
        · exact List.not_mem_nil
        · exact ih h
      · rw [if_neg hc] at h
        cases hrest : splitOn sep rest with
        | nil =>
            rw [hrest] at h
            obtain rfl := List.mem_singleton.1 h
            simpa using Ne.symm hc
        | cons first parts =>
            rw [hrest] at h
            rcases List.mem_cons.1 h with rfl | h
            · exact List.not_mem_cons_of_ne_of_not_mem (Ne.symm hc) (ih (by rw [hrest]; exact List.mem_cons_self))
            · exact ih (by rw [hrest]; exact List.mem_cons_of_mem first h)

/-- A line holds no line feed. -/
theorem newline_notMem_of_mem_lines {s line : List Char} (h : line ∈ lines s) : '\n' ∉ line := by
  have ended {part : List Char} (hpart : part ∈ splitOn '\n' s) : '\n' ∉ dropCarriageReturn part := by
    rw [dropCarriageReturn]
    split
    · exact fun hc => notMem_of_mem_splitOn hpart (List.dropLast_subset _ hc)
    · exact notMem_of_mem_splitOn hpart
  have before : line ∈ (splitOn '\n' s).dropLast.map dropCarriageReturn → '\n' ∉ line := by
    rintro hline
    obtain ⟨part, hpart, rfl⟩ := List.mem_map.1 hline
    exact ended (List.dropLast_subset _ hpart)
  rw [lines] at h
  cases hlast : (splitOn '\n' s).getLast? with
  | none => exact before (by simpa [hlast] using h)
  | some last =>
      cases last with
      | nil => exact before (by simpa [hlast] using h)
      | cons c rest =>
          rw [hlast, List.mem_append, List.mem_singleton] at h
          rcases h with h | rfl
          · exact before h
          · exact notMem_of_mem_splitOn (List.mem_of_mem_getLast? hlast)

/-- A text that goes on behind a line feed has the line in front of it, without a carriage return at its end, and then
the lines of what follows. -/
theorem lines_append_newline {line : List Char} (h : '\n' ∉ line) (later : List Char) :
    lines (line ++ '\n' :: later) = dropCarriageReturn line :: lines later := by
  rw [lines, splitOn_append_cons, splitOn_eq_singleton h, List.singleton_append]
  cases hparts : splitOn '\n' later with
  | nil =>
      have := length_splitOn '\n' later
      rw [hparts] at this
      cases this
  | cons part parts =>
      simp only [List.dropLast_cons_cons, List.map_cons, List.getLast?_cons_cons, lines, hparts]
      split <;> rfl

/-- A text that is not empty and has no line feed is its only line. -/
theorem lines_eq_singleton {line : List Char} (h : '\n' ∉ line) (hne : line ≠ []) : lines line = [line] := by
  rw [lines, splitOn_eq_singleton h]
  cases line with
  | nil => exact absurd rfl hne
  | cons c rest => rfl

/-- Splitting some texts does not give fewer parts. -/
theorem length_le_length_flatMap_splitOn (sep : Char) (parts : List (List Char)) :
    parts.length ≤ (parts.flatMap (splitOn sep)).length := by
  induction parts with
  | nil => exact Nat.le_refl _
  | cons part parts ih =>
      rw [List.flatMap_cons, List.length_append, length_splitOn, List.length_cons]
      omega

/-- Splitting some texts gives as many parts exactly if the character occurs in none of them. -/
theorem length_flatMap_splitOn_eq_iff {sep : Char} {parts : List (List Char)} :
    (parts.flatMap (splitOn sep)).length = parts.length ↔ ∀ s ∈ parts, sep ∉ s := by
  induction parts with
  | nil => simp
  | cons part parts ih =>
      have := length_le_length_flatMap_splitOn sep parts
      have split : (splitOn sep part).length + (parts.flatMap (splitOn sep)).length = parts.length + 1 ↔
          part.count sep = 0 ∧ (parts.flatMap (splitOn sep)).length = parts.length := by
        rw [length_splitOn]
        omega
      rw [List.flatMap_cons, List.length_append, List.length_cons, split, ih, List.count_eq_zero,
        List.forall_mem_cons]

/-- Splitting some texts gives them back exactly if the character occurs in none of them. -/
theorem flatMap_splitOn_eq_self_iff {sep : Char} {parts : List (List Char)} :
    parts.flatMap (splitOn sep) = parts ↔ ∀ s ∈ parts, sep ∉ s := by
  constructor
  · intro h
    exact length_flatMap_splitOn_eq_iff.1 (congrArg List.length h)
  · intro h
    calc parts.flatMap (splitOn sep) = parts.flatMap fun s => [s] :=
          List.flatMap_congr fun s hs => splitOn_eq_singleton (h s hs)
      _ = parts := by simp

/-- Texts each ended by the character split into the parts of each, and nothing is left behind the last. -/
theorem splitOn_flatMap_ended (sep : Char) (parts : List (List Char)) :
    splitOn sep (parts.flatMap (· ++ [sep])) = parts.flatMap (splitOn sep) ++ [[]] := by
  induction parts with
  | nil => rfl
  | cons part parts ih =>
      rw [List.flatMap_cons, List.append_assoc, List.singleton_append, splitOn_append_cons, ih,
        List.flatMap_cons, List.append_assoc]

end SuiteReport
