import Mathlib.Algebra.Group.Nat.Defs
import Mathlib.Data.List.TakeWhile
import Mathlib.Data.Nat.Init
import SuiteReport.Text.Position
/-!
# Offsets and positions

A position is found again at the offset that it was made from. A content is a first line, without a line feed,
followed by nothing or by a line feed and further lines; offsets in the first line and offsets behind it are
treated apart, and behind it everything is as in the rest of the content, one line further down.

From one offset to the next the position moves by one byte, which begins a new line or takes up one more column. So
positions come in the order of their offsets, and the lines between two positions are the line feeds between the
offsets.

## Main definitions

* `Position.IsIn`: the positions that a content has.
* `Position.Before`: the order of positions, line by line and then column by column.

## Main results

* `lines_induction`: induction on the lines of a content.
* `offset?_ofOffset`: the position of an offset of a content has that offset.
* `offset?_eq_some_iff`: the position of an offset is the only one that has it.
* `before_ofOffset`: positions come in the order of their offsets.
* `newlines_between`: the lines between two positions are the line feeds between them.
* `offsets_and_positions`: offsets and positions tell each other, in the same order.
-/

namespace SuiteReport.Position

/-! ### Positions of offsets -/

/-- The first byte leads on to the position after it. -/
theorem advance_cons (p : Position) (n : Nat) (b : UInt8) (rest : Bytes) :
    advance p (n + 1) (b :: rest) = advance (p.after b) n rest := rfl

/-- A line feed leads on to the next line. -/
theorem after_newline (p : Position) : p.after Bytes.newline = p.nextLine := rfl

/-- Within a line the column goes on. -/
theorem after_of_ne {b : UInt8} (hb : b ≠ Bytes.newline) (p : Position) : p.after b = ⟨p.line, p.column + 1⟩ :=
  if_neg (by simpa using hb)

/-- The position of an offset is reached from the beginning of the content. -/
theorem ofOffset_eq (content : Bytes) (o : Nat) : ofOffset content o = advance ⟨1, 1⟩ o content := rfl

/-- A line other than the first starts where the line before it starts behind the first line feed. -/
theorem lineStart?_add_two (content : Bytes) (line : Nat) :
    lineStart? content (line + 2) = (content.idxOf? Bytes.newline).bind fun i =>
      (lineStart? (content.drop (i + 1)) (line + 1)).map (i + 1 + ·) := by
  rw [lineStart?]
  cases content.idxOf? Bytes.newline <;> rfl

/-- A content without a line feed has no line but the first. -/
theorem lineStart?_of_newline_notMem {content : Bytes} (h : Bytes.newline ∉ content) (line : Nat) :
    lineStart? content (line + 2) = none := by
  rw [lineStart?_add_two, List.idxOf?_eq_none_iff.2 h, Option.bind_none]

/-- Columns are counted from one, and from the start of a line that there is. -/
theorem offset?_eq (content : Bytes) (p : Position) :
    p.offset? content = if p.column = 0 then none else (lineStart? content p.line).bind fun start =>
      if p.column - 1 ≤ lineLength (content.drop start) then some (start + (p.column - 1)) else none := rfl

/-- The position that is reached from a position further down is further down by as many lines. -/
theorem advance_add_line (k l c n : Nat) (content : Bytes) :
    advance ⟨l + k, c⟩ n content =
      ⟨(advance ⟨l, c⟩ n content).line + k, (advance ⟨l, c⟩ n content).column⟩ := by
  induction n generalizing l c content with
  | zero => rfl
  | succ n ih =>
      cases content with
      | nil => rfl
      | cons b rest =>
          by_cases hb : b = Bytes.newline
          · have := ih (l + 1) 1 rest
            rw [Nat.add_right_comm] at this
            rwa [advance_cons, advance_cons, hb, after_newline, after_newline]
          · rw [advance_cons, advance_cons, after_of_ne hb, after_of_ne hb]
            exact ih l (c + 1) rest

/-- Within a line the column counts the bytes. -/
theorem advance_of_newline_notMem {n : Nat} {content : Bytes} (p : Position) (hn : n ≤ content.length)
    (h : Bytes.newline ∉ content.take n) : advance p n content = ⟨p.line, p.column + n⟩ := by
  induction n generalizing p content with
  | zero => rfl
  | succ n ih =>
      cases content with
      | nil => simp at hn
      | cons b rest =>
          rw [List.take_succ_cons, List.mem_cons, not_or] at h
          rw [advance_cons, after_of_ne (Ne.symm h.1), ih _ (Nat.le_of_succ_le_succ hn) h.2]
          simp [Nat.add_comm, Nat.add_left_comm]

/-- Bytes are read one stretch after the other. -/
theorem advance_append (p : Position) (first later : Bytes) (n : Nat) :
    advance p (first.length + n) (first ++ later) = advance (advance p first.length first) n later := by
  induction first generalizing p with
  | nil => simp only [List.length_nil, Nat.zero_add, List.nil_append]; rfl
  | cons b first ih =>
      rw [List.length_cons, Nat.add_right_comm, List.cons_append, advance_cons, advance_cons, ih]

/-- No position is above the first line. -/
theorem line_pos_of_advance {p : Position} (hp : 0 < p.line) (n : Nat) (content : Bytes) :
    0 < (advance p n content).line := by
  induction n generalizing p content with
  | zero => exact hp
  | succ n ih =>
      cases content with
      | nil => exact hp
      | cons b rest =>
          refine ih ?_ rest
          by_cases hb : b = Bytes.newline
          · rw [hb, after_newline]
            exact Nat.succ_pos _
          · rwa [after_of_ne hb]

/-! ### Behind the first line -/

/-- **Induction on the lines of a content.** What holds of every single line, and of a line that is followed by a line
feed as soon as it holds of what comes behind, holds of every content. -/
theorem lines_induction {motive : Bytes → Prop} (line : ∀ first, Bytes.newline ∉ first → motive first)
    (lines : ∀ first later, Bytes.newline ∉ first → motive later → motive (first ++ Bytes.newline :: later))
    (content : Bytes) : motive content := by
  induction hk : content.length using Nat.strongRecOn generalizing content with
  | ind k ih =>
      by_cases hmem : Bytes.newline ∈ content
      · obtain ⟨first, later, rfl, hfirst⟩ := List.eq_append_cons_of_mem hmem
        have shorter : later.length < k := by
          rw [← hk, List.length_append, List.length_cons]
          omega
        exact lines first later hfirst (ih _ shorter later rfl)
      · exact line content hmem

section Lines

variable {first : Bytes} (h : Bytes.newline ∉ first) (later : Bytes)
include h

/-- Behind the first line, offsets have the positions that they have in the rest, one line further down. -/
theorem ofOffset_append (o : Nat) :
    ofOffset (first ++ Bytes.newline :: later) (first.length + 1 + o) =
      ⟨(ofOffset later o).line + 1, (ofOffset later o).column⟩ := by
  have inFirst : advance ⟨1, 1⟩ first.length first = ⟨1, 1 + first.length⟩ :=
    advance_of_newline_notMem _ (Nat.le_refl _) (by simpa using h)
  rw [ofOffset_eq, Nat.add_assoc, advance_append, inFirst, Nat.add_comm 1 o, advance_cons]
  exact advance_add_line 1 1 1 o later

/-- Behind the first line, lines start where they start in the rest. -/
theorem lineStart?_append (line : Nat) :
    lineStart? (first ++ Bytes.newline :: later) (line + 2) =
      (lineStart? later (line + 1)).map (first.length + 1 + ·) := by
  have found : (first ++ Bytes.newline :: later).idxOf? Bytes.newline = some first.length := by
    rw [List.idxOf?_eq_some_iff]
    refine ⟨by simp, by simp, ?_⟩
    intro j hj
    rw [List.getElem_append_left hj]
    exact fun hn => h (hn ▸ List.getElem_mem hj)
  have rest : (first ++ Bytes.newline :: later).drop (first.length + 1) = later := by simp
  rw [lineStart?_add_two, found, Option.bind_some, rest]

/-- Behind the first line, positions have the offsets that they have in the rest. -/
theorem offset?_append {p : Position} (hp : 0 < p.line) :
    offset? (first ++ Bytes.newline :: later) ⟨p.line + 1, p.column⟩ =
      (offset? later p).map (first.length + 1 + ·) := by
  obtain ⟨line, column⟩ := p
  obtain ⟨line, rfl⟩ : ∃ k, line = k + 1 := ⟨line - 1, by simp only at hp; omega⟩
  have rest : ∀ start, (first ++ Bytes.newline :: later).drop (first.length + 1 + start) = later.drop start := by
    intro start
    rw [← List.drop_drop]
    simp
  by_cases hc : column = 0
  · rw [offset?_eq, offset?_eq, if_pos hc, if_pos hc, Option.map_none]
  · rw [offset?_eq, offset?_eq, if_neg hc, if_neg hc, lineStart?_append h later]
    cases lineStart? later (line + 1) with
    | none => rfl
    | some start =>
        simp only [Option.map_some, Option.bind_some, rest]
        split <;> simp [Nat.add_assoc]

end Lines

/-! ### Finding an offset again -/

/-- An offset in the first line is found again. -/
theorem offset?_ofOffset_of_newline_notMem {content : Bytes} {o : Nat} (ho : o ≤ content.length)
    (h : Bytes.newline ∉ content.take o) : (ofOffset content o).offset? content = some o := by
  have unbroken : ∀ b ∈ content.take o, (b != Bytes.newline) = true := by
    intro b hb
    simpa using fun hn : b = Bytes.newline => h (hn ▸ hb)
  have inLine : o ≤ lineLength content := by
    rw [lineLength, ← List.take_append_drop o content, List.takeWhile_append_of_pos unbroken,
      List.length_append, List.length_take]
    omega
  rw [ofOffset_eq, advance_of_newline_notMem _ ho h, offset?_eq]
  change ite _ none (Option.bind (some 0) _) = _
  simp [inLine]

/-- **The position of an offset has that offset.** The induction is on the lines of the content. -/
theorem offset?_ofOffset {content : Bytes} {o : Nat} (ho : o ≤ content.length) :
    (ofOffset content o).offset? content = some o := by
  induction content using lines_induction generalizing o with
  | line first hfirst => exact offset?_ofOffset_of_newline_notMem ho fun hmem => hfirst (List.mem_of_mem_take hmem)
  | lines first later hfirst ih =>
      rcases Nat.lt_or_ge first.length o with hbehind | hin
      · obtain ⟨o, rfl⟩ := Nat.exists_eq_add_of_le hbehind
        have inLater : o ≤ later.length := by
          simp only [List.length_append, List.length_cons] at ho
          omega
        rw [ofOffset_append hfirst, offset?_append hfirst, ih inLater, Option.map_some]
        exact line_pos_of_advance Nat.one_pos _ _
      · refine offset?_ofOffset_of_newline_notMem ho fun hmem => hfirst ?_
        rw [List.take_append_of_le_length hin] at hmem
        exact List.mem_of_mem_take hmem

/-! ### The only position of an offset -/

/-- Within the length of its first line a content has no line feed. -/
theorem newline_notMem_take {content : Bytes} {n : Nat} (h : n ≤ lineLength content) :
    Bytes.newline ∉ content.take n := by
  intro hmem
  have inLine : content.take n <+: content.takeWhile (· != Bytes.newline) :=
    List.prefix_of_prefix_length_le (List.take_prefix _ _) (List.takeWhile_prefix _)
      (by rw [List.length_take]; exact (Nat.min_le_left _ _).trans h)
  have := List.mem_takeWhile_imp (inLine.subset hmem)
  simp at this

/-- The first line of a content is not longer than the content. -/
theorem lineLength_le (content : Bytes) : lineLength content ≤ content.length :=
  (List.takeWhile_prefix _).length_le

/-- A position on the first line with an offset is the position of that offset. -/
theorem ofOffset_of_offset?_firstLine {content : Bytes} {column o : Nat} (h : offset? content ⟨1, column⟩ = some o) :
    o ≤ content.length ∧ ofOffset content o = ⟨1, column⟩ := by
  rw [offset?_eq] at h
  obtain ⟨hcolumn, h⟩ := Option.ite_none_left_eq_some.1 h
  obtain ⟨inLine, hsum⟩ := Option.ite_none_right_eq_some.1 h
  obtain rfl : column - 1 = o := (Nat.zero_add _).symm.trans (Option.some.inj hsum)
  have inContent := inLine.trans (lineLength_le content)
  rw [ofOffset_eq, advance_of_newline_notMem _ inContent (newline_notMem_take inLine),
    Nat.add_sub_cancel' (Nat.one_le_iff_ne_zero.2 hcolumn)]
  exact ⟨inContent, rfl⟩

/-- Only a position on a line that there is has an offset. -/
theorem exists_lineStart?_of_offset? {content : Bytes} {p : Position} {o : Nat} (h : p.offset? content = some o) :
    ∃ start, lineStart? content p.line = some start := by
  rw [offset?_eq] at h
  obtain ⟨-, h⟩ := Option.ite_none_left_eq_some.1 h
  obtain ⟨start, hstart, -⟩ := Option.bind_eq_some_iff.1 h
  exact ⟨start, hstart⟩

/-- **A position with an offset is the position of that offset.** The induction is on the lines of the content, and the
position is on the first line or behind it. -/
theorem ofOffset_of_offset? {content : Bytes} {p : Position} {o : Nat} (h : p.offset? content = some o) :
    o ≤ content.length ∧ ofOffset content o = p := by
  induction content using lines_induction generalizing p o with
  | line first hfirst =>
      obtain ⟨start, hstart⟩ := exists_lineStart?_of_offset? h
      match p with
      | ⟨0, column⟩ => cases hstart
      | ⟨1, column⟩ => exact ofOffset_of_offset?_firstLine h
      | ⟨line + 2, column⟩ => cases (lineStart?_of_newline_notMem hfirst line).symm.trans hstart
  | lines first later hfirst ih =>
      obtain ⟨start, hstart⟩ := exists_lineStart?_of_offset? h
      match p with
      | ⟨0, column⟩ => cases hstart
      | ⟨1, column⟩ => exact ofOffset_of_offset?_firstLine h
      | ⟨line + 2, column⟩ =>
          have behind := offset?_append hfirst later (p := ⟨line + 1, column⟩) line.succ_pos
          obtain ⟨o, ho, rfl⟩ := Option.map_eq_some_iff.1 (behind.symm.trans h)
          obtain ⟨inLater, hposition⟩ := ih ho
          rw [ofOffset_append hfirst, hposition]
          refine ⟨?_, rfl⟩
          simp only [List.length_append, List.length_cons]
          omega

/-- **Offsets and positions tell each other.** -/
theorem offset?_eq_some_iff {content : Bytes} {p : Position} {o : Nat} :
    p.offset? content = some o ↔ o ≤ content.length ∧ ofOffset content o = p := by
  constructor
  · exact ofOffset_of_offset?
  · rintro ⟨ho, rfl⟩
    exact offset?_ofOffset ho

/-- Whether a content has a position, which is then that of one of its offsets. -/
def IsIn (p : Position) (content : Bytes) : Prop := ∃ o, o ≤ content.length ∧ ofOffset content o = p

/-- A content has the positions that have an offset. -/
theorem isIn_iff {p : Position} {content : Bytes} : p.IsIn content ↔ (p.offset? content).isSome := by
  rw [IsIn, Option.isSome_iff_exists]
  exact exists_congr fun o => offset?_eq_some_iff.symm

instance (p : Position) (content : Bytes) : Decidable (p.IsIn content) := decidable_of_iff' _ isIn_iff

/-! ### From one offset to the next -/

/-- Whether a position comes before another: on an earlier line, or on the same line in an earlier column. -/
def Before (p q : Position) : Prop := p.line < q.line ∨ p.line = q.line ∧ p.column < q.column

instance (p q : Position) : Decidable (p.Before q) := inferInstanceAs (Decidable (_ ∨ _))

theorem Before.trans {p q r : Position} (hpq : p.Before q) (hqr : q.Before r) : p.Before r := by
  unfold Before at *
  omega

theorem Before.irrefl (p : Position) : ¬ p.Before p := by
  unfold Before
  omega

/-- The position just after a byte is behind the position before it. -/
theorem before_after (p : Position) (b : UInt8) : p.Before (p.after b) := by
  by_cases hb : b = Bytes.newline
  · rw [hb, after_newline]
    exact .inl (Nat.lt_succ_self _)
  · rw [after_of_ne hb]
    exact .inr ⟨rfl, Nat.lt_succ_self _⟩

/-- The position of the next offset is just after the byte in between. -/
theorem advance_succ {content : Bytes} {n : Nat} {b : UInt8} (p : Position) (h : content[n]? = some b) :
    advance p (n + 1) content = (advance p n content).after b := by
  induction n generalizing p content with
  | zero =>
      cases content with
      | nil => cases h
      | cons c rest =>
          obtain rfl := Option.some.inj h
          cases rest <;> rfl
  | succ n ih =>
      cases content with
      | nil => cases h
      | cons c rest => exact ih (p.after c) h

/-- Beyond the end of a content no position is reached. -/
theorem advance_of_length_le {content : Bytes} {n : Nat} (p : Position) (h : content.length ≤ n) :
    advance p n content = advance p content.length content := by
  induction content generalizing p n with
  | nil => cases n <;> rfl
  | cons b rest ih =>
      obtain ⟨n, rfl⟩ := Nat.exists_eq_add_of_le' h
      exact ih (p.after b) (Nat.le_add_left _ _)

/-- The line counts the line feeds that have been passed. -/
theorem line_advance (p : Position) (n : Nat) (content : Bytes) :
    (advance p n content).line = p.line + Bytes.newlines (content.take n) := by
  induction n generalizing p content with
  | zero => rfl
  | succ n ih =>
      cases content with
      | nil => rfl
      | cons b rest =>
          rw [advance_cons, ih, List.take_succ_cons, Bytes.newlines, Bytes.newlines, List.count_cons, after]
          split <;> simp [nextLine, Nat.add_assoc, Nat.add_comm 1]

/-- The line of an offset counts the line feeds before it. -/
theorem line_ofOffset (content : Bytes) (o : Nat) : (ofOffset content o).line = 1 + Bytes.newlines (content.take o) :=
  line_advance _ _ _

/-- An offset beyond the content has the position of its end. -/
theorem ofOffset_of_length_le {content : Bytes} {o : Nat} (h : content.length ≤ o) :
    ofOffset content o = ofOffset content content.length :=
  advance_of_length_le _ h

/-- **Positions come in the order of their offsets.** The induction is on the second offset. -/
theorem before_ofOffset {content : Bytes} {o₁ o₂ : Nat} (h : o₁ < o₂) (h₂ : o₂ ≤ content.length) :
    (ofOffset content o₁).Before (ofOffset content o₂) := by
  induction o₂, h using Nat.le_induction with
  | base =>
      rw [ofOffset_eq, ofOffset_eq, advance_succ _ (List.getElem?_eq_getElem h₂)]
      exact before_after _ _
  | succ o₂ _ ih =>
      refine (ih (by omega)).trans ?_
      rw [ofOffset_eq, ofOffset_eq, advance_succ _ (List.getElem?_eq_getElem h₂)]
      exact before_after _ _

/-- Offsets come in the order of their positions. -/
theorem le_of_not_before {content : Bytes} {o₁ o₂ : Nat} (h₁ : o₁ ≤ content.length)
    (h : ¬ (ofOffset content o₂).Before (ofOffset content o₁)) : o₁ ≤ o₂ :=
  Nat.le_of_not_lt fun hlt => h (before_ofOffset hlt h₁)

/-- The line feeds before an offset are those before an earlier one and those in between. -/
theorem newlines_take {content : Bytes} {s e : Nat} (h : s ≤ e) :
    Bytes.newlines (content.take e) = Bytes.newlines (content.take s) + Bytes.newlines ((content.drop s).take (e - s)) := by
  have parts : content.take e = content.take s ++ (content.drop s).take (e - s) := by
    rw [← List.take_add, Nat.add_sub_cancel' h]
  rw [parts, Bytes.newlines, List.count_append]
  rfl

/-- **The lines between two positions** are the line feeds between their offsets. -/
theorem newlines_between (content : Bytes) {s e : Nat} (h : s ≤ e) :
    Bytes.newlines ((content.drop s).take (e - s)) = (ofOffset content e).line - (ofOffset content s).line := by
  rw [line_ofOffset, line_ofOffset, newlines_take h]
  omega

/-- Lines come in the order of their offsets. -/
theorem line_le_line (content : Bytes) {s e : Nat} (h : s ≤ e) :
    (ofOffset content s).line ≤ (ofOffset content e).line := by
  rw [line_ofOffset, line_ofOffset, newlines_take h]
  omega

/-! ### Inside the content -/

/-- Lines are counted from one and start inside the content or at its end. -/
theorem le_of_lineStart? {content : Bytes} {line start : Nat} (h : lineStart? content line = some start) :
    0 < line ∧ start ≤ content.length := by
  induction content using lines_induction generalizing line start with
  | line first hfirst =>
      match line with
      | 0 => cases h
      | 1 =>
          obtain rfl := Option.some.inj h
          exact ⟨Nat.one_pos, Nat.zero_le _⟩
      | line + 2 => cases (lineStart?_of_newline_notMem hfirst line).symm.trans h
  | lines first later hfirst ih =>
      match line with
      | 0 => cases h
      | 1 =>
          obtain rfl := Option.some.inj h
          exact ⟨Nat.one_pos, Nat.zero_le _⟩
      | line + 2 =>
          rw [lineStart?_append hfirst] at h
          obtain ⟨start, hstart, rfl⟩ := Option.map_eq_some_iff.1 h
          have inLater := (ih hstart).2
          simp only [List.length_append, List.length_cons]
          omega

/-- The column of an offset counts the bytes from the start of its line. -/
theorem exists_lineStart?_ofOffset {content : Bytes} {o : Nat} (ho : o ≤ content.length) :
    ∃ start, lineStart? content (ofOffset content o).line = some start ∧ start ≤ o ∧
      (ofOffset content o).column = o - start + 1 := by
  have h := offset?_ofOffset ho
  rw [offset?_eq] at h
  obtain ⟨hcolumn, h⟩ := Option.ite_none_left_eq_some.1 h
  obtain ⟨start, hstart, h⟩ := Option.bind_eq_some_iff.1 h
  obtain ⟨-, h⟩ := Option.ite_none_right_eq_some.1 h
  have hsum := Option.some.inj h
  exact ⟨start, hstart, by omega, by omega⟩

/-- A line and a column are at most one more than the number of bytes. -/
theorem le_length_of_ofOffset (content : Bytes) (o : Nat) :
    (ofOffset content o).line ≤ content.length + 1 ∧ (ofOffset content o).column ≤ content.length + 1 := by
  have inside {o : Nat} (ho : o ≤ content.length) :
      (ofOffset content o).line ≤ content.length + 1 ∧ (ofOffset content o).column ≤ content.length + 1 := by
    obtain ⟨start, -, -, hcolumn⟩ := exists_lineStart?_ofOffset ho
    have fewer : Bytes.newlines (content.take o) ≤ (content.take o).length := List.count_le_length
    rw [List.length_take] at fewer
    rw [line_ofOffset]
    omega
  rcases Nat.le_total o content.length with ho | ho
  · exact inside ho
  · rw [ofOffset_of_length_le ho]
    exact inside (Nat.le_refl _)

/-- **Offsets and positions of a content** tell each other, in the same order. A position has an offset exactly if it
is the position of that offset; a later offset has a later position; between two offsets there are as many line feeds
as there are lines between their positions; and beyond the end there is only the position of the end. Lines start
inside the content, an offset is not before the start of its line, and lines and columns are numbers of 32 bits. -/
theorem offsets_and_positions {content : Bytes} (hsize : content.length < 2 ^ 32 - 1) :
    (∀ (p : Position) (o : Nat), p.offset? content = some o ↔ o ≤ content.length ∧ ofOffset content o = p) ∧
      (∀ o₁ o₂, o₁ < o₂ → o₂ ≤ content.length → (ofOffset content o₁).Before (ofOffset content o₂)) ∧
      (∀ s e, s ≤ e → e ≤ content.length → ∃ part, content.extract? ⟨s, e⟩ = some part ∧
        (ofOffset content s).line ≤ (ofOffset content e).line ∧
        part.newlines = (ofOffset content e).line - (ofOffset content s).line) ∧
      (∀ o, content.length < o → ofOffset content o = ofOffset content content.length) ∧
      (∀ line start, lineStart? content line = some start → 0 < line ∧ start ≤ content.length) ∧
      (∀ o, o ≤ content.length → ∃ start, lineStart? content (ofOffset content o).line = some start ∧ start ≤ o ∧
        (ofOffset content o).column = o - start + 1) ∧
      ∀ o, (ofOffset content o).line < 2 ^ 32 ∧ (ofOffset content o).column < 2 ^ 32 := by
  refine ⟨fun _ _ => offset?_eq_some_iff, fun _ _ => before_ofOffset, ?_, fun _ ho => ofOffset_of_length_le ho.le,
    fun _ _ => le_of_lineStart?, fun _ => exists_lineStart?_ofOffset, ?_⟩
  · intro s e hse he
    exact ⟨_, if_pos ⟨hse, he⟩, line_le_line content hse, newlines_between content hse⟩
  · intro o
    obtain ⟨hline, hcolumn⟩ := le_length_of_ofOffset content o
    omega

/-- A content with an empty line and a last line that is empty. -/
theorem offsets_and_positions_emptyLines :
    (Bytes.ofString "a\n\nbc\n").length < 2 ^ 32 - 1 ∧
      (⟨3, 2⟩ : Position).offset? (Bytes.ofString "a\n\nbc\n") = some 4 ∧
      (⟨4, 1⟩ : Position).offset? (Bytes.ofString "a\n\nbc\n") = some 6 := by
  have short : (Bytes.ofString "a\n\nbc\n").length < 2 ^ 32 - 1 := by decide +kernel
  obtain ⟨told, -⟩ := offsets_and_positions short
  exact ⟨short, (told _ _).2 (by decide +kernel), (told _ _).2 (by decide +kernel)⟩

end SuiteReport.Position
