import Mathlib.Data.List.Chain
import Mathlib.Data.Option.Basic
import SuiteReport.Go.Module
import SuiteReport.Proofs.Text.Split
import SuiteReport.Proofs.Text.Trim
/-!
# The line that declares a module

A module file declares the path of its module in a line of its own. What stands in the line besides the path can be
laid out in many ways, and lines that only look like such a line may stand in front of it. The path is found in all of
them. Since a comment begins at the first two slashes of a line, a path that ends with a slash has to be set apart from
a comment behind it.

## Main definitions

* `GoModule.DeclaresPath`: what it is for a line to declare a path.
* `GoModule.Layout`, `GoModule.Layout.Holds`: what stands around the path in a line, and which paths it goes with.
* `EndedLine`: a line and what ends it.

## Main results

* `GoModule.pathOfLine?_eq_some_iff`: the path that is found in a line is the one that it declares.
* `GoModule.declaresPath_iff`: a line declares the path that is laid out in it, and no other one.
* `GoModule.declaredPath?_of_layout`: the path is found in every layout, and none in a file without such a line.
-/

namespace SuiteReport

/-! ### Lines and their ends -/

/-- What ends a line. -/
inductive LineEnd where
  /-- A line feed. -/
  | feed
  /-- A carriage return and a line feed. -/
  | returnFeed
deriving DecidableEq, Repr

/-- The characters that end a line. -/
def LineEnd.text : LineEnd → List Char
  | .feed => ['\n']
  | .returnFeed => ['\r', '\n']

/-- A line and what ends it. -/
structure EndedLine where
  /-- The line itself. -/
  line : List Char
  /-- What ends it. -/
  ending : LineEnd
  /-- The line is one line. -/
  oneLine : '\n' ∉ line

/-- The characters of the line and of what ends it. -/
def EndedLine.text (l : EndedLine) : List Char := l.line ++ l.ending.text

namespace Go.GoModule

variable {s later path : List Char}

/-! ### Comments -/

/-- Whether no comment begins in the text, which would be where two slashes stand next to each other. -/
def Uncommented (s : List Char) : Prop := s.IsChain fun c d => ¬ (c = '/' ∧ d = '/')

instance (s : List Char) : Decidable (Uncommented s) :=
  inferInstanceAs (Decidable (s.IsChain fun c d => ¬ (c = '/' ∧ d = '/')))

/-- No comment begins in a text without slashes. -/
theorem uncommented_of_notMem (h : '/' ∉ s) : Uncommented s := by
  refine List.Pairwise.isChain (List.pairwise_of_forall_mem_list fun c hc d _ => ?_)
  rintro ⟨rfl, -⟩
  exact h hc

/-- A character that no comment begins at is kept. -/
theorem withoutComment_cons {c : Char} (h : ∀ d ∈ s.head?, ¬ (c = '/' ∧ d = '/')) :
    withoutComment (c :: s) = c :: withoutComment s := by
  rw [withoutComment]
  rintro rest rfl rfl
  exact h '/' rfl ⟨rfl, rfl⟩

/-- A text that goes on begins like the text with the first character behind it. -/
theorem head?_append_take_one (s later : List Char) : (s ++ later.take 1).head? = (s ++ later).head? := by
  cases s with
  | nil => cases later <;> rfl
  | cons c s => rfl

/-- **A text in which no comment begins is kept**, also if it is followed by something that makes no two slashes with
it. -/
theorem withoutComment_append (h : Uncommented (s ++ later.take 1)) :
    withoutComment (s ++ later) = s ++ withoutComment later := by
  induction s with
  | nil => rfl
  | cons c s ih =>
      obtain ⟨hhead, htail⟩ := List.isChain_cons.1 h
      have here : ∀ d ∈ (s ++ later).head?, ¬ (c = '/' ∧ d = '/') := by rwa [← head?_append_take_one]
      rw [List.cons_append, withoutComment_cons here, ih htail, List.cons_append]

/-- A comment with its slashes, if there is one. -/
def commentText (comment : Option (List Char)) : List Char := comment.elim [] (['/', '/'] ++ ·)

/-- Nothing is kept of a comment. -/
theorem withoutComment_commentText (comment : Option (List Char)) : withoutComment (commentText comment) = [] := by
  cases comment <;> rfl

/-- **What is cut off is a comment**, if anything is, and it is cut off where it begins. -/
theorem exists_commentText (s : List Char) :
    ∃ comment, s = withoutComment s ++ commentText comment ∧
      Uncommented (withoutComment s ++ (commentText comment).take 1) := by
  fun_induction withoutComment s with
  | case1 => exact ⟨none, rfl, List.isChain_nil⟩
  | case2 rest => exact ⟨some rest, rfl, List.isChain_singleton _⟩
  | case3 c rest hcomment ih =>
      obtain ⟨comment, hrest, huncommented⟩ := ih
      have here : ∀ d ∈ (withoutComment rest ++ (commentText comment).take 1).head?, ¬ (c = '/' ∧ d = '/') := by
        rw [head?_append_take_one, ← hrest]
        rintro d hd ⟨rfl, rfl⟩
        exact hcomment rest.tail rfl (List.eq_cons_of_mem_head? hd)
      exact ⟨comment, congrArg (c :: ·) hrest, List.isChain_cons.2 ⟨here, huncommented⟩⟩

/-- A character that is no slash is kept at the end of a line, or is part of a comment. -/
theorem withoutComment_concat {c : Char} (hc : c ≠ '/') (s : List Char) :
    withoutComment (s ++ [c]) = withoutComment s ∨ withoutComment (s ++ [c]) = withoutComment s ++ [c] := by
  fun_induction withoutComment s with
  | case1 => exact .inr (withoutComment_cons (by simp))
  | case2 rest => exact .inl rfl
  | case3 d rest hcomment ih =>
      have here : ∀ e ∈ (rest ++ [c]).head?, ¬ (d = '/' ∧ e = '/') := by
        rintro e he ⟨rfl, rfl⟩
        cases rest with
        | nil => exact hc (Option.some.inj he)
        | cons e rest => exact hcomment rest rfl (by rw [Option.some.inj he])
      rw [List.cons_append, withoutComment_cons here]
      exact ih.imp (congrArg _) (congrArg _)

/-! ### Lines that declare a path -/

/-- **Whether a line declares the path.** Up to a comment, and without white space at its ends, the line is the word,
then white space, and then a text from which first the white space and then the quotes at its ends are removed. What is
left is the path, and something has to be left. -/
def DeclaresPath (line path : List Char) : Prop :=
  path ≠ [] ∧ ∃ gap written,
    trim Blank.isBlank (withoutComment line) = directive ++ gap ++ written ∧
      gap ≠ [] ∧ (∀ c ∈ gap, Blank.isBlank c = true) ∧
      trim isQuote (trim Blank.isBlank written) = path

/-- **The path that is found in a line** is the one that the line declares. -/
theorem pathOfLine?_eq_some_iff {line : List Char} {path : String} :
    pathOfLine? line = some path ↔ DeclaresPath line path.toList := by
  have blankHead {rest : List Char} : rest.head?.any Blank.isBlank = true ↔
      ∃ gap written, rest = gap ++ written ∧ gap ≠ [] ∧ ∀ c ∈ gap, Blank.isBlank c = true := by
    constructor
    · intro h
      cases rest with
      | nil => cases h
      | cons c written => exact ⟨[c], written, rfl, List.cons_ne_nil _ _, by simpa using h⟩
    · rintro ⟨gap, written, rfl, hne, hgap⟩
      cases gap with
      | nil => exact absurd rfl hne
      | cons c gap => exact hgap c List.mem_cons_self
  simp only [pathOfLine?, Option.bind_eq_bind, Option.bind_eq_some_iff, Option.guard_eq_some', Option.pure_def,
    Option.some.injEq, exists_const, List.isPrefixOf_iff_prefix, blankHead]
  constructor
  · rintro ⟨⟨rest, hrest⟩, ⟨gap, written, hgap, hne, hblank⟩, hpath, rfl⟩
    rw [← hrest, List.drop_left] at hgap hpath ⊢
    subst hgap
    rw [trim_class_append hblank] at hpath ⊢
    rw [String.toList_ofList]
    exact ⟨hpath, gap, written, by rw [← hrest, List.append_assoc], hne, hblank, rfl⟩
  · rintro ⟨hpath, gap, written, hline, hne, hblank, hwritten⟩
    rw [List.append_assoc] at hline
    rw [hline, List.drop_left, trim_class_append hblank, hwritten]
    exact ⟨List.prefix_append _ _, ⟨gap, written, rfl, hne, hblank⟩, hpath, String.ofList_toList⟩

/-- No path is found in a line exactly if the line declares none. -/
theorem pathOfLine?_eq_none_iff {line : List Char} : pathOfLine? line = none ↔ ∀ path, ¬ DeclaresPath line path := by
  rw [Option.eq_none_iff_forall_ne_some]
  constructor
  · intro h path hpath
    exact h (String.ofList path) (pathOfLine?_eq_some_iff.2 (by rwa [String.toList_ofList]))
  · intro h path hpath
    exact h path.toList (pathOfLine?_eq_some_iff.1 hpath)

/-- A carriage return at the end of a line does not matter. -/
theorem pathOfLine?_dropCarriageReturn (line : List Char) :
    pathOfLine? (dropCarriageReturn line) = pathOfLine? line := by
  rw [dropCarriageReturn]
  split
  next h =>
      obtain ⟨s, rfl⟩ := List.getLast?_eq_some_iff.1 h
      have blank : ∀ c ∈ ['\r'], Blank.isBlank c = true := List.forall_mem_singleton.2 (by decide)
      have trimmed : trim Blank.isBlank (withoutComment (s ++ ['\r'])) = trim Blank.isBlank (withoutComment s) := by
        rcases withoutComment_concat (by decide : '\r' ≠ '/') s with h | h
        · rw [h]
        · rw [h, trim_append_class blank]
      rw [List.dropLast_concat, pathOfLine?, pathOfLine?, trimmed]
  next => rfl

/-! ### Layouts -/

/-- **The layout of a line** that declares a path: what stands around the word and the path. -/
structure Layout where
  /-- The white space in front of the word. -/
  indent : List Char
  /-- The white space between the word and the path. -/
  gap : List Char
  /-- The quotes in front of the path. -/
  opening : List Char
  /-- The quotes behind the path. -/
  closing : List Char
  /-- The white space behind the path. -/
  behind : List Char
  /-- What a comment says behind its two slashes, if there is one. -/
  comment : Option (List Char)
  /-- What stands in front of the word is white space. -/
  blank_indent : ∀ c ∈ indent, Blank.isBlank c = true
  /-- What stands between the word and the path is white space. -/
  blank_gap : ∀ c ∈ gap, Blank.isBlank c = true
  /-- What stands behind the path is white space. -/
  blank_behind : ∀ c ∈ behind, Blank.isBlank c = true
  /-- There is white space between the word and the path. -/
  gap_ne_nil : gap ≠ []
  /-- The quotes in front of the path are quotes. -/
  quotes_opening : ∀ c ∈ opening, isQuote c = true
  /-- The quotes behind the path are quotes. -/
  quotes_closing : ∀ c ∈ closing, isQuote c = true

namespace Layout

/-- The path with its quotes. -/
def quoted (l : Layout) (path : List Char) : List Char := l.opening ++ path ++ l.closing

/-- The line up to the comment. -/
def front (l : Layout) (path : List Char) : List Char :=
  l.indent ++ (directive ++ l.gap ++ l.quoted path) ++ l.behind

/-- The line in which the path is laid out. -/
def line (l : Layout) (path : List Char) : List Char := l.front path ++ commentText l.comment

/-- **Whether a path can be laid out so**: it can be told from what stands around it. -/
structure Holds (l : Layout) (path : List Char) : Prop where
  /-- There is a path. -/
  ne_nil : path ≠ []
  /-- The path begins with no quote. -/
  first : ∀ c ∈ path.head?, isQuote c = false
  /-- The path ends with no quote. -/
  last : ∀ c ∈ path.getLast?, isQuote c = false
  /-- With its quotes the path begins with no white space. -/
  first_quoted : ∀ c ∈ (l.quoted path).head?, Blank.isBlank c = false
  /-- With its quotes the path ends with no white space. -/
  last_quoted : ∀ c ∈ (l.quoted path).getLast?, Blank.isBlank c = false
  /-- No comment begins in front of that of the layout. -/
  uncommented : Uncommented (l.front path ++ (commentText l.comment).take 1)

variable {l : Layout}

/-- **A line declares the path that is laid out in it.** -/
theorem Holds.declaresPath (h : l.Holds path) : DeclaresPath (l.line path) path := by
  have cut : withoutComment (l.line path) = l.front path := by
    rw [line, withoutComment_append h.uncommented, withoutComment_commentText, List.append_nil]
  have trimmed : trim Blank.isBlank (directive ++ l.gap ++ l.quoted path) = directive ++ l.gap ++ l.quoted path := by
    have some : l.quoted path ≠ [] := by simp [quoted, h.ne_nil]
    refine trim_eq_self_of_ends ?_ ?_
    · rw [List.append_assoc, List.head?_append_of_ne_nil _ (by decide)]
      rintro c hc
      obtain rfl : 'm' = c := Option.some.inj hc
      decide
    · rw [List.getLast?_append_of_ne_nil _ some]
      exact h.last_quoted
  refine ⟨h.ne_nil, l.gap, l.quoted path, ?_, l.gap_ne_nil, l.blank_gap, ?_⟩
  · rw [cut, front, trim_append_class l.blank_behind, trim_class_append l.blank_indent, trimmed]
  · rw [trim_eq_self_of_ends h.first_quoted h.last_quoted, quoted, trim_append_class l.quotes_closing,
      trim_class_append l.quotes_opening, trim_eq_self_of_ends h.first h.last]

end Layout

/-- **A path that a line declares is laid out in it.** The layout is what the reading of the line takes off. -/
theorem exists_layout_of_declaresPath {line : List Char} (h : DeclaresPath line path) :
    ∃ l : Layout, l.Holds path ∧ l.line path = line := by
  obtain ⟨hne, gap, written, hline, hgap, hblank, hpath⟩ := h
  obtain ⟨comment, hcut, huncommented⟩ := exists_commentText line
  obtain ⟨indent, behind, hfront, hindent, hbehind⟩ := exists_trim Blank.isBlank (withoutComment line)
  obtain ⟨before, after, hwritten, hbefore, hafter⟩ := exists_trim Blank.isBlank written
  obtain ⟨opening, closing, hquoted, hopening, hclosing⟩ := exists_trim isQuote (trim Blank.isBlank written)
  obtain ⟨hfirst, hlast⟩ := stays_at_ends_trim isQuote (trim Blank.isBlank written)
  obtain ⟨hfirstQuoted, hlastQuoted⟩ := stays_at_ends_trim Blank.isBlank written
  rw [hpath] at hquoted hfirst hlast
  let l : Layout := {
    indent, gap := gap ++ before, opening, closing, behind := after ++ behind, comment
    blank_indent := hindent
    blank_gap := fun c hc => (List.mem_append.1 hc).elim (hblank c) (hbefore c)
    blank_behind := fun c hc => (List.mem_append.1 hc).elim (hafter c) (hbehind c)
    gap_ne_nil := List.append_ne_nil_of_left_ne_nil hgap before
    quotes_opening := hopening
    quotes_closing := hclosing }
  have quoted : l.quoted path = trim Blank.isBlank written := hquoted.symm
  have front : l.front path = withoutComment line := by
    rw [Layout.front, quoted, hfront, hline]
    generalize trim Blank.isBlank written = core at hwritten
    rw [hwritten]
    simp only [l, List.append_assoc]
  refine ⟨l, ⟨hne, hfirst, hlast, ?_, ?_, ?_⟩, ?_⟩
  · rwa [quoted]
  · rwa [quoted]
  · rwa [front]
  · rw [Layout.line, front, ← hcut]

/-- **A line declares a path exactly if the path is laid out in it.** -/
theorem declaresPath_iff {line : List Char} :
    DeclaresPath line path ↔ ∃ l : Layout, l.Holds path ∧ l.line path = line := by
  constructor
  · exact exists_layout_of_declaresPath
  · rintro ⟨l, hl, rfl⟩
    exact hl.declaresPath

/-! ### Paths -/

/-- **A path that can be laid out in many ways**: it is not empty, no comment begins in it, and it has neither white
space nor quotes at its ends. -/
structure IsPath (path : List Char) : Prop where
  /-- The path is not empty. -/
  ne_nil : path ≠ []
  /-- No comment begins in the path. -/
  uncommented : Uncommented path
  /-- The path begins with neither white space nor a quote. -/
  first : ∀ c ∈ path.head?, Blank.isBlank c = false ∧ isQuote c = false
  /-- The path ends with neither white space nor a quote. -/
  last : ∀ c ∈ path.getLast?, Blank.isBlank c = false ∧ isQuote c = false

/-- A quote is not white space. -/
theorem isBlank_of_isQuote {c : Char} (h : isQuote c = true) : Blank.isBlank c = false := by
  rw [isQuote, Bool.or_eq_true, beq_iff_eq, beq_iff_eq] at h
  rcases h with rfl | rfl <;> decide

/-- There is no slash among white space. -/
theorem slash_notMem_of_blank (h : ∀ c ∈ s, Blank.isBlank c = true) : '/' ∉ s :=
  fun hslash => absurd (h '/' hslash) (by decide)

/-- There is no slash among quotes. -/
theorem slash_notMem_of_quotes (h : ∀ c ∈ s, isQuote c = true) : '/' ∉ s :=
  fun hslash => absurd (h '/' hslash) (by decide)

namespace Layout

variable {l : Layout}

/-- **Whether a comment is set apart from the path.** Of three slashes the first two begin the comment, so a path that
ends with a slash needs a quote or white space between it and a comment. -/
def SetsApart (l : Layout) (path : List Char) : Prop :=
  l.comment ≠ none → l.closing = [] → l.behind = [] → path.getLast? ≠ some '/'

/-- With its quotes a path begins with no white space. -/
theorem first_quoted (hpath : IsPath path) : ∀ c ∈ (l.quoted path).head?, Blank.isBlank c = false := by
  intro c hc
  rw [quoted, List.append_assoc, List.head?_append, List.head?_append_of_ne_nil _ hpath.ne_nil] at hc
  rcases Option.or_eq_some_iff.1 hc with hc | ⟨-, hc⟩
  · exact isBlank_of_isQuote (l.quotes_opening c (List.mem_of_mem_head? hc))
  · exact (hpath.first c hc).1

/-- With its quotes a path ends with no white space. -/
theorem last_quoted (hpath : IsPath path) : ∀ c ∈ (l.quoted path).getLast?, Blank.isBlank c = false := by
  intro c hc
  rw [quoted, List.getLast?_append, List.getLast?_append_of_ne_nil _ hpath.ne_nil] at hc
  rcases Option.or_eq_some_iff.1 hc with hc | ⟨-, hc⟩
  · exact isBlank_of_isQuote (l.quotes_closing c (List.mem_of_mem_getLast? hc))
  · exact (hpath.last c hc).1

/-- **No comment begins in front of that of the layout**, since the only slashes are those of the path and of the
comment, and the last one of the path does not stand next to the first one of the comment. -/
theorem uncommented_front (hpath : IsPath path) (hapart : l.SetsApart path) :
    Uncommented (l.front path ++ (commentText l.comment).take 1) := by
  have before : '/' ∉ l.indent ++ directive ++ l.gap ++ l.opening := by
    have word : '/' ∉ directive := by decide
    simp only [List.mem_append, not_or]
    exact ⟨⟨⟨slash_notMem_of_blank l.blank_indent, word⟩, slash_notMem_of_blank l.blank_gap⟩,
      slash_notMem_of_quotes l.quotes_opening⟩
  have after : '/' ∉ l.closing ++ l.behind := by
    simp only [List.mem_append, not_or]
    exact ⟨slash_notMem_of_quotes l.quotes_closing, slash_notMem_of_blank l.blank_behind⟩
  have slash : Uncommented ((commentText l.comment).take 1) := by
    cases l.comment with
    | none => exact List.isChain_nil
    | some comment => exact List.isChain_singleton _
  have text : l.front path ++ (commentText l.comment).take 1 =
      (l.indent ++ directive ++ l.gap ++ l.opening) ++
        (path ++ ((l.closing ++ l.behind) ++ (commentText l.comment).take 1)) := by
    simp only [front, quoted, List.append_assoc]
  rw [text]
  refine List.isChain_append.2 ⟨uncommented_of_notMem before, List.isChain_append.2 ⟨hpath.uncommented,
    List.isChain_append.2 ⟨uncommented_of_notMem after, slash, ?_⟩, ?_⟩, ?_⟩
  · rintro c hc d - ⟨rfl, -⟩
    exact after (List.mem_of_mem_getLast? hc)
  · rintro c hc d hd ⟨rfl, rfl⟩
    cases hrear : l.closing ++ l.behind with
    | nil =>
        obtain ⟨hclosing, hbehind⟩ := List.append_eq_nil_iff.1 hrear
        refine hapart (fun hcomment => ?_) hclosing hbehind hc
        rw [hrear, hcomment] at hd
        cases hd
    | cons e rear =>
        rw [hrear] at hd after
        exact after (List.mem_of_mem_head? hd)
  · rintro c hc d - ⟨rfl, -⟩
    exact before (List.mem_of_mem_getLast? hc)

/-- **A path goes with every layout** that sets it apart from a comment. -/
theorem holds_of_isPath (hpath : IsPath path) (hapart : l.SetsApart path) : l.Holds path where
  ne_nil := hpath.ne_nil
  first := fun c hc => (hpath.first c hc).2
  last := fun c hc => (hpath.last c hc).2
  first_quoted := first_quoted hpath
  last_quoted := last_quoted hpath
  uncommented := uncommented_front hpath hapart

end Layout

/-! ### Files -/

/-- The first line of a text declares its path, or else the lines behind it do. -/
theorem findSome?_pathOfLine?_append_newline {line : List Char} (h : '\n' ∉ line) (later : List Char) :
    (lines (line ++ '\n' :: later)).findSome? pathOfLine? =
      (pathOfLine? line).or ((lines later).findSome? pathOfLine?) := by
  rw [lines_append_newline h, List.findSome?_cons, pathOfLine?_dropCarriageReturn]
  cases pathOfLine? line <;> rfl

/-- It does not matter what ends the first line. -/
theorem findSome?_pathOfLine?_ended (l : EndedLine) (later : List Char) :
    (lines (l.text ++ later)).findSome? pathOfLine? =
      (pathOfLine? l.line).or ((lines later).findSome? pathOfLine?) := by
  rw [EndedLine.text, List.append_assoc]
  cases l.ending with
  | feed => exact findSome?_pathOfLine?_append_newline l.oneLine later
  | returnFeed =>
      have oneLine : '\n' ∉ l.line ++ ['\r'] := by simp [l.oneLine]
      have returned : pathOfLine? (l.line ++ ['\r']) = pathOfLine? l.line := by
        rw [← pathOfLine?_dropCarriageReturn, dropCarriageReturn, if_pos List.getLast?_concat, List.dropLast_concat]
      have text : l.line ++ (LineEnd.returnFeed.text ++ later) = (l.line ++ ['\r']) ++ '\n' :: later := by
        simp [LineEnd.text]
      rw [text, findSome?_pathOfLine?_append_newline oneLine, returned]

/-- **Lines that declare no path are passed over.** -/
theorem findSome?_pathOfLine?_passed {earlier : List EndedLine}
    (h : ∀ l ∈ earlier, ∀ path, ¬ DeclaresPath l.line path) (later : List Char) :
    (lines (earlier.flatMap EndedLine.text ++ later)).findSome? pathOfLine? =
      (lines later).findSome? pathOfLine? := by
  induction earlier with
  | nil => rfl
  | cons l earlier ih =>
      obtain ⟨hl, hearlier⟩ := List.forall_mem_cons.1 h
      rw [List.flatMap_cons, List.append_assoc, findSome?_pathOfLine?_ended, pathOfLine?_eq_none_iff.2 hl,
        Option.none_or, ih hearlier]

/-- What follows a line: nothing, or what ends the line and any text behind it. -/
def textBehind (rest : Option (LineEnd × List Char)) : List Char := rest.elim [] fun r => r.1.text ++ r.2

/-- The path that is laid out in the first line of a text is found, whether or not the line is also the last one. -/
theorem findSome?_pathOfLine?_line {l : Layout} (hl : l.Holds path) (hline : '\n' ∉ l.line path)
    (rest : Option (LineEnd × List Char)) :
    (lines (l.line path ++ textBehind rest)).findSome? pathOfLine? = some (String.ofList path) := by
  have found : pathOfLine? (l.line path) = some (String.ofList path) := by
    rw [pathOfLine?_eq_some_iff, String.toList_ofList]
    exact hl.declaresPath
  cases rest with
  | none =>
      have some : l.line path ≠ [] := by simp [Layout.line, Layout.front, l.gap_ne_nil]
      rw [textBehind, Option.elim_none, List.append_nil, lines_eq_singleton hline some, List.findSome?_cons, found]
  | some rest =>
      have first := findSome?_pathOfLine?_ended ⟨l.line path, rest.1, hline⟩ rest.2
      rw [textBehind, Option.elim_some, ← List.append_assoc]
      exact first.trans (by rw [found, Option.some_or])

/-- **The path is found in every layout.** The content is made of lines that declare no path, a line in which the path
is laid out and, behind what ends that line, any text. A file declares no path exactly if none of its lines does; and a
line declares a path exactly if the path is laid out in it. -/
theorem declaredPath?_of_layout :
    (∀ (earlier : List EndedLine) (l : Layout) (path : List Char) (rest : Option (LineEnd × List Char)),
      IsPath path → l.SetsApart path → '\n' ∉ l.line path →
        (∀ e ∈ earlier, ∀ other, ¬ DeclaresPath e.line other) →
          declaredPath? (String.ofList (earlier.flatMap EndedLine.text ++ (l.line path ++ textBehind rest))) =
            some (String.ofList path)) ∧
      (∀ content : String,
        declaredPath? content = none ↔ ∀ line ∈ lines content.toList, ∀ path, ¬ DeclaresPath line path) ∧
      ∀ line path, DeclaresPath line path ↔ ∃ l : Layout, l.Holds path ∧ l.line path = line := by
  refine ⟨fun earlier l path rest hpath hapart hline hearlier => ?_, fun content => ?_, fun line path =>
    declaresPath_iff⟩
  · rw [declaredPath?, String.toList_ofList, findSome?_pathOfLine?_passed hearlier,
      findSome?_pathOfLine?_line (Layout.holds_of_isPath hpath hapart) hline]
  · rw [declaredPath?, List.findSome?_eq_none_iff]
    exact forall₂_congr fun line _ => pathOfLine?_eq_none_iff

/-- Lines that look like one that declares a path. -/
def lookAlikes : List EndedLine := [
  ⟨"modules x".toList, .feed, by decide⟩,
  ⟨"// module x".toList, .returnFeed, by decide⟩,
  ⟨"  module \"\" // x".toList, .feed, by decide⟩]

/-- A line with quotes, and with a comment right behind them. -/
def quotedLayout : Layout where
  indent := ['\t']
  gap := [' ', ' ']
  opening := ['\x60']
  closing := ['\x60']
  behind := []
  comment := some "c".toList
  blank_indent := List.all_eq_true.1 (by decide)
  blank_gap := List.all_eq_true.1 (by decide)
  blank_behind := List.all_eq_true.1 (by decide)
  gap_ne_nil := by decide
  quotes_opening := List.all_eq_true.1 (by decide)
  quotes_closing := List.all_eq_true.1 (by decide)

theorem declaredPath?_of_layout_lookAlikes :
    IsPath "a.b/c/".toList ∧ quotedLayout.SetsApart "a.b/c/".toList ∧ '\n' ∉ quotedLayout.line "a.b/c/".toList ∧
      (∀ e ∈ lookAlikes, ∀ other, ¬ DeclaresPath e.line other) ∧
      declaredPath? "modules x\n// module x\r\n  module \"\" // x\n\tmodule  `a.b/c/`//c\r\nmodule d\n" =
        some "a.b/c/" := by
  have path : IsPath "a.b/c/".toList :=
    ⟨by decide, by decide, by simp [Blank.isBlank, isQuote], by simp [Blank.isBlank, isQuote]⟩
  have apart : quotedLayout.SetsApart "a.b/c/".toList := fun _ h => absurd h (List.cons_ne_nil _ _)
  have oneLine : '\n' ∉ quotedLayout.line "a.b/c/".toList := by decide
  have silent : ∀ e ∈ lookAlikes, pathOfLine? e.line = none := by decide
  have passed : ∀ e ∈ lookAlikes, ∀ other, ¬ DeclaresPath e.line other :=
    fun e he => pathOfLine?_eq_none_iff.1 (silent e he)
  have found := declaredPath?_of_layout.1 lookAlikes quotedLayout _ (some (.returnFeed, "module d\n".toList)) path apart
    oneLine passed
  have content : lookAlikes.flatMap EndedLine.text ++
      (quotedLayout.line "a.b/c/".toList ++ textBehind (some (.returnFeed, "module d\n".toList))) =
        "modules x\n// module x\r\n  module \"\" // x\n\tmodule  `a.b/c/`//c\r\nmodule d\n".toList := by decide
  rw [content, String.ofList_toList, String.ofList_toList] at found
  exact ⟨path, apart, oneLine, passed, found⟩

/-- A line with nothing around the path but one blank and, right behind it, a comment. -/
def bareLayout : Layout where
  indent := []
  gap := [' ']
  opening := []
  closing := []
  behind := []
  comment := some "c".toList
  blank_indent := nofun
  blank_gap := List.all_eq_true.1 (by decide)
  blank_behind := nofun
  gap_ne_nil := by decide
  quotes_opening := nofun
  quotes_closing := nofun

/-- **A comment that begins right behind a path takes the slash off that the path ends with**, since of three slashes
the first two begin the comment. And white space in quotes is a path, since white space is removed before quotes. -/
theorem exists_path_without_slash :
    (IsPath "a/".toList ∧ bareLayout.line "a/".toList = "module a///c".toList ∧
      declaredPath? "module a///c" = some "a") ∧
      (∀ c ∈ "\" \"".toList, Blank.isBlank c = true ∨ isQuote c = true) ∧
      declaredPath? "module \" \"" = some " " := by
  have path : IsPath "a/".toList :=
    ⟨by decide, by decide, by simp [Blank.isBlank, isQuote], by simp [Blank.isBlank, isQuote]⟩
  exact ⟨⟨path, rfl, by decide⟩, by simp [Blank.isBlank, isQuote], by decide⟩

end Go.GoModule

end SuiteReport
