import SuiteReport.Proofs.Text.Split
import SuiteReport.Proofs.Text.Trim
import SuiteReport.Report.CommentText
/-!
# The text of a comment and its summary

The text of a comment and its summary both come from the lines of the comment that are meant for readers, and both
take the markers off these lines by themselves. The text puts the lines together, without the empty ones at both
ends; the summary goes through them and stops at the first that says something. This module proves that the two see
the same lines: the summary can be read off the text, where nothing has to be taken off or left out once more.

## Main definitions

* `firstStatement`: the first of some lines that says something.

## Main results

* `splitOn_bodyChars`: the lines of the text of a comment.
* `summary_eq_firstStatement`: the summary is the first line of the text that says something.
-/

namespace SuiteReport.CommentText

/-! ### Lines without markers -/

/-- What follows the beginning of a text is part of the text. -/
theorem mem_of_after? {start : String} {s later : List Char} {c : Char} (h : after? start s = some later)
    (hc : c ∈ later) : c ∈ s := by
  rw [after?] at h
  split at h
  · obtain rfl := Option.some.inj h
    exact List.mem_of_mem_drop hc
  · cases h

/-- Nothing is added when a marker that opens a comment is taken off. -/
theorem mem_of_mem_dropOpening {s : List Char} {c : Char} (hc : c ∈ dropOpening s) : c ∈ s := by
  rw [dropOpening] at hc
  cases hline : after? "//" s with
  | some later =>
      rw [hline] at hc
      exact mem_of_after? hline hc
  | none =>
      cases hblock : after? "/*" s with
      | some later =>
          rw [hline, hblock] at hc
          exact mem_of_after? hblock hc
      | none => rwa [hline, hblock] at hc

/-- Nothing is added when a marker that closes a comment is taken off. -/
theorem mem_of_mem_dropClosing {s : List Char} {c : Char} (hc : c ∈ dropClosing s) : c ∈ s := by
  rw [dropClosing] at hc
  split at hc
  · exact List.dropLast_subset _ (List.dropLast_subset _ hc)
  · exact hc

/-- Nothing is added when the star that continues a comment is taken off. -/
theorem mem_of_mem_dropContinuation {s : List Char} {c : Char} (hc : c ∈ dropContinuation s) : c ∈ s := by
  fun_cases dropContinuation s with
  | case1 => simp [dropContinuation] at hc
  | case2 rest => exact List.mem_cons_of_mem _ (by simpa [dropContinuation] using hc)
  | case3 => simpa [dropContinuation] using hc

/-- A line without its markers has no characters but those of the line. -/
theorem mem_of_mem_stripMarkers {line : List Char} {c : Char} (hc : c ∈ stripMarkers line) : c ∈ line := by
  have unmarked := mem_of_mem_trimStart (mem_of_mem_dropContinuation (mem_of_mem_trim hc))
  exact mem_of_mem_trim (mem_of_mem_dropOpening (mem_of_mem_dropClosing unmarked))

/-- A line for readers is one line. -/
theorem newline_notMem_of_mem_readableLines {comment line : List Char} (h : line ∈ readableLines comment) :
    '\n' ∉ line := by
  obtain ⟨raw, hraw, rfl⟩ := List.mem_map.1 h
  exact fun hc => newline_notMem_of_mem_lines (List.mem_of_mem_filter hraw) (mem_of_mem_stripMarkers hc)

/-- A line for readers neither begins nor ends with white space. -/
theorem stays_of_mem_readableLines {comment line : List Char} (h : line ∈ readableLines comment) :
    (∀ c ∈ line.head?, Blank.isBlank c = false) ∧ ∀ c ∈ line.getLast?, Blank.isBlank c = false := by
  obtain ⟨raw, -, rfl⟩ := List.mem_map.1 h
  exact stays_at_ends Blank.isBlank _

/-! ### Lines of a text -/

/-- What is left out at both ends of some lines is empty. -/
theorem exists_blank_ends (ls : List (List Char)) :
    ∃ before behind, ls = before ++ dropBlankEnds ls ++ behind ∧ (∀ line ∈ before, line = []) ∧
      ∀ line ∈ behind, line = [] := by
  obtain ⟨before, behind, hls, hbefore, hbehind⟩ := exists_class_ends List.isEmpty ls
  exact ⟨before, behind, hls, fun line h => List.isEmpty_iff.1 (hbefore line h),
    fun line h => List.isEmpty_iff.1 (hbehind line h)⟩

/-- A line that is left is one of the lines. -/
theorem mem_of_mem_dropBlankEnds {ls : List (List Char)} {line : List Char} (h : line ∈ dropBlankEnds ls) :
    line ∈ ls := by
  rw [dropBlankEnds, List.mem_reverse] at h
  have kept := List.mem_reverse.1 ((List.dropWhile_suffix _).mem h)
  exact (List.dropWhile_suffix _).mem kept

/-- **The lines of the text of a comment** are those for readers, without the empty ones at both ends. -/
theorem splitOn_bodyChars {comment : List Char} (h : dropBlankEnds (readableLines comment) ≠ []) :
    splitOn '\n' (bodyChars comment) = dropBlankEnds (readableLines comment) := by
  have lineFeed : ∀ line ∈ dropBlankEnds (readableLines comment), '\n' ∉ line := by
    intro line hline
    exact newline_notMem_of_mem_readableLines (mem_of_mem_dropBlankEnds hline)
  rw [splitOn_eq, bodyChars, List.splitOn_intercalate '\n' lineFeed h]

/-- If no line is left, the text is empty and has a single line, which is empty. -/
theorem bodyChars_eq_nil {comment : List Char} (h : dropBlankEnds (readableLines comment) = []) :
    bodyChars comment = [] := by
  rw [bodyChars, h]
  rfl

/-- The first and the last of the lines that are left are not empty. -/
theorem ne_nil_at_ends_dropBlankEnds (ls : List (List Char)) :
    (∀ line ∈ (dropBlankEnds ls).head?, line ≠ []) ∧ ∀ line ∈ (dropBlankEnds ls).getLast?, line ≠ [] := by
  obtain ⟨first, last⟩ := stays_at_ends List.isEmpty ls
  exact ⟨fun line h => List.isEmpty_eq_false_iff.1 (first line h),
    fun line h => List.isEmpty_eq_false_iff.1 (last line h)⟩

/-! ### The summary -/

/-- **The first of some lines that says something.** A description gives what follows its mark, an empty line and a
line with another tag say nothing, and any other line stands for itself. -/
def firstStatement : List (List Char) → List Char
  | [] => []
  | line :: later =>
    if descriptionMark.toList <+: line then trim Blank.isBlank (line.drop descriptionMark.length)
    else if line = [] ∨ line.head? = some '@' then firstStatement later
    else line

/-- The summary that some lines give is the first of them that says something. -/
theorem firstSummary_eq_firstStatement (ls : List (List Char)) : firstSummary ls = firstStatement ls := by
  induction ls with
  | nil => rfl
  | cons line later ih =>
      rw [firstStatement, firstSummary, List.findSome?_cons, lineSummary?, after?]
      by_cases hdescription : descriptionMark.toList <+: line
      · rw [if_pos hdescription, if_pos (List.isPrefixOf_iff_prefix.2 hdescription)]
        rfl
      · rw [if_neg hdescription, if_neg (mt List.isPrefixOf_iff_prefix.1 hdescription)]
        by_cases hsilent : line = [] ∨ line.head? = some '@'
        · rw [if_pos hsilent, ← ih, if_pos (by simpa using hsilent), firstSummary]
        · rw [if_neg hsilent, if_neg (by simpa using hsilent)]
          rfl

/-- Empty lines at both ends give no summary. -/
theorem firstSummary_dropBlankEnds (ls : List (List Char)) : firstSummary (dropBlankEnds ls) = firstSummary ls := by
  obtain ⟨before, behind, hls, hbefore, hbehind⟩ := exists_blank_ends ls
  have silent {part : List (List Char)} (h : ∀ line ∈ part, line = []) : part.findSome? lineSummary? = none := by
    rw [List.findSome?_eq_none_iff]
    intro line hline
    rw [h line hline]
    rfl
  calc firstSummary (dropBlankEnds ls) = firstSummary (before ++ dropBlankEnds ls ++ behind) := by
        rw [firstSummary, firstSummary, List.findSome?_append, List.findSome?_append, silent hbefore, silent hbehind,
          Option.none_or, Option.or_none]
    _ = firstSummary ls := by rw [← hls]

/-- **The summary can be read off the text.** The summary of a comment is the first line of its text that says
something, with no marker taken off and no line left out any more. The text is empty, or its first and its last line
are not; and each of its lines is one line that neither begins nor ends with white space. -/
theorem summary_eq_firstStatement (comment : String) :
    summary comment = String.ofList (firstStatement (splitOn '\n' (body comment).toList)) ∧
      (body comment = "" ∨
        (∀ line ∈ (splitOn '\n' (body comment).toList).head?, line ≠ []) ∧
          ∀ line ∈ (splitOn '\n' (body comment).toList).getLast?, line ≠ []) ∧
      ∀ line ∈ splitOn '\n' (body comment).toList,
        '\n' ∉ line ∧ (∀ c ∈ line.head?, Blank.isBlank c = false) ∧ ∀ c ∈ line.getLast?, Blank.isBlank c = false := by
  have chars : (body comment).toList = bodyChars comment.toList := String.toList_ofList
  rw [chars, summary, ← firstSummary_dropBlankEnds, firstSummary_eq_firstStatement]
  by_cases hnone : dropBlankEnds (readableLines comment.toList) = []
  · -- the text is empty, and an empty text still has one line, which says nothing
    have single : splitOn '\n' (bodyChars comment.toList) = [[]] := by
      rw [bodyChars_eq_nil hnone]
      rfl
    rw [single, hnone]
    refine ⟨rfl, .inl ?_, by simp⟩
    rw [body, bodyChars_eq_nil hnone]
  · rw [splitOn_bodyChars hnone]
    refine ⟨rfl, .inr (ne_nil_at_ends_dropBlankEnds _), ?_⟩
    intro line hline
    have readable := mem_of_mem_dropBlankEnds hline
    exact ⟨newline_notMem_of_mem_readableLines readable, stays_of_mem_readableLines readable⟩

end SuiteReport.CommentText
