import Mathlib.Data.List.SplitBy
import SuiteReport.Proofs.Source.Place
/-!
# Runs of comments

Comments below one another make up a block. Whether a comment belongs to the block of the one before it is told by the
bytes around it: there has to be nothing but white space between the two, at most one line feed among it, and on the
lines of both nothing may show in front of the comment. Another comment shows there as much as code does. So the
blocks are the maximal runs of comments in which each begins on the line after the one before it ends, and of two
comments on one line the second always trails.

## Main definitions

* `Preceded`: whether something stands before a place on its line.
* `GoesOn`: whether a comment goes on where the comment before it ends.
* `CommentBlock.IsBlockOf`: what a block has from the comments of a run.

## Main results

* `followsCode_iff_preceded`: what shows before a comment on its line.
* `CommentBlock.isBlockOf_blocks`: the blocks are the maximal runs of comments that belong together.
* `blocks_eq_runs`: what the runs are in a source.
-/

namespace SuiteReport

/-- Where the line of an offset starts: the offsets up to it that are on the same line are those from there on. -/
theorem Position.exists_start {content : Bytes} {o : Nat} (ho : o ≤ content.length) :
    ∃ start, start ≤ o ∧ (ofOffset content o).column = o - start + 1 ∧
      ∀ p, p ≤ o → ((ofOffset content p).line = (ofOffset content o).line ↔ start ≤ p) := by
  obtain ⟨start, hstart, hle, hcolumn⟩ := exists_lineStart?_ofOffset ho
  refine ⟨start, hle, hcolumn, fun p hp => ⟨fun hline => ?_, fun hp' => ?_⟩⟩
  · obtain ⟨start', hstart', hle', -⟩ := exists_lineStart?_ofOffset (hp.trans ho)
    rw [hline, hstart] at hstart'
    obtain rfl := Option.some.inj hstart'
    exact hle'
  · have first : offset? content ⟨(ofOffset content o).line, 1⟩ = some start := by simp [offset?, hstart]
    have hfirst : (ofOffset content start).line = (ofOffset content o).line := by rw [(ofOffset_of_offset? first).2]
    have := line_le_line content hp
    have := line_le_line content hp'
    omega

namespace Go

variable {content : Bytes} {lexemes : Lexemes} {c d : Span}

/-! ### What stands before a place on its line -/

/-- Whether the first offset comes before the second on the same line. -/
def OnLineBefore (content : Bytes) (p o : Nat) : Prop :=
  p < o ∧ (Position.ofOffset content p).line = (Position.ofOffset content o).line

/-- Whether some byte before the offset on its line is not white space. -/
theorem CommentBlock.followsCode_iff {o : Nat} (ho : o ≤ content.length) :
    followsCode content o = true ↔
      ∃ p b, OnLineBefore content p o ∧ content[p]? = some b ∧ Bytes.isBlank b = false := by
  obtain ⟨start, hle, hcolumn, hline⟩ := Position.exists_start ho
  have before : lineBefore content o = (content.drop start).take (o - start) := by
    simp only [lineBefore, hcolumn, Nat.add_sub_cancel]
    congr 2
    omega
  rw [followsCode, before, List.any_eq_true]
  constructor
  · rintro ⟨b, hb, hblank⟩
    obtain ⟨i, hi, hget⟩ := List.mem_take_iff_getElem.1 hb
    rw [List.length_drop] at hi
    have hat : content[start + i]? = some b := by
      rw [← List.getElem?_drop, ← hget]
      exact List.getElem?_eq_getElem _
    refine ⟨start + i, b, ⟨by omega, (hline _ (by omega)).2 (Nat.le_add_right _ _)⟩, hat, by simpa using hblank⟩
  · rintro ⟨p, b, ⟨hlt, hsame⟩, hat, hblank⟩
    have hp := (hline p (Nat.le_of_lt hlt)).1 hsame
    refine ⟨b, List.mem_iff_getElem?.2 ⟨p - start, ?_⟩, by simpa using hblank⟩
    rw [List.getElem?_take_of_lt (by omega), List.getElem?_drop, Nat.add_sub_cancel' hp, hat]

/-- The bytes of a byte order mark. -/
def byteOrderMark : Bytes := String.utf8EncodeChar '\uFEFF'

/-- Whether the byte belongs to a token, to a comment or to the byte order mark of the source, or is a vertical tab. -/
def Occupied (content : Bytes) (lexemes : Lexemes) (p : Nat) : Prop :=
  (∃ t ∈ lexemes.tokens, Inside t.span p) ∨ (∃ c ∈ lexemes.comments, Inside c p) ∨
    (p < byteOrderMark.length ∧ byteOrderMark <+: content) ∨ content[p]? = some 0x0B

/-- Whether a byte before the offset on its line is occupied. -/
def Preceded (content : Bytes) (lexemes : Lexemes) (o : Nat) : Prop :=
  ∃ p, OnLineBefore content p o ∧ Occupied content lexemes p

/-- Where the lexemes of a source begin: at its beginning, or behind its byte order mark. -/
theorem Lexemes.exists_scans_behind_mark (h : ofBytes? content = some lexemes) :
    ∃ offset, Scans offset (Bytes.glyphs (content.drop offset)) lexemes ∧
      (offset = 0 ∨ offset = byteOrderMark.length ∧ byteOrderMark <+: content) := by
  rw [ofBytes?] at h
  split at h
  · rename_i hgs
    obtain rfl := Option.some.inj h
    have hstart : Bytes.glyphs (content.drop 0) = [] := hgs
    exact ⟨0, hstart ▸ .nil, .inl rfl⟩
  · rename_i g rest hgs
    obtain ⟨hfirst, hrest⟩ := Bytes.of_glyphs_eq_cons hgs
    split at h
    · rename_i hmark
      obtain ⟨c, hc, heq⟩ := (Option.any_eq_true _ _).1 hmark
      obtain rfl := beq_iff_eq.1 heq
      obtain ⟨hdecode, hwidth⟩ := hfirst _ hc
      obtain ⟨later, hlater⟩ := Bytes.exists_of_decodeChar? hdecode
      refine ⟨g.width, hrest.symm ▸ scans_of_scan? h, .inr ⟨?_, later, hlater.symm⟩⟩
      rw [hwidth, ← String.length_utf8EncodeChar, byteOrderMark]
    · have hstart : Bytes.glyphs (content.drop 0) = g :: rest := hgs
      exact ⟨0, hstart.symm ▸ scans_of_scan? h, .inl rfl⟩

/-- A token or a comment of a source lies inside it, and is not empty. -/
theorem Lexemes.stop_le_length (h : ofBytes? content = some lexemes) {lexeme : Lexeme} {span : Span}
    (hs : lexemes.Has lexeme span) : span.start ≤ span.stop ∧ span.stop ≤ content.length := by
  obtain ⟨offset, hscans⟩ := exists_scans h
  obtain ⟨-, g, rest, count, hgs, -, hstop⟩ := hscans.exists_next? rfl hs
  have inside := Bytes.widthOf_take_le hgs count
  rw [List.length_drop] at inside
  have nonempty : content.drop span.start ≠ [] := by
    intro hnil
    rw [hnil] at hgs
    cases hgs
  have : span.start < content.length := by
    by_contra hle
    exact nonempty (List.drop_eq_nil_of_le (Nat.le_of_not_lt hle))
  omega

/-- What shows before a comment on its line is white space, unless a byte there is occupied. -/
theorem followsCode_iff_preceded (h : Lexemes.ofBytes? content = some lexemes) (hc : c ∈ lexemes.comments) :
    CommentBlock.followsCode content c.start = true ↔ Preceded content lexemes c.start := by
  have has : lexemes.Has .comment c := hc
  obtain ⟨hle, hlength⟩ := Lexemes.stop_le_length h has
  rw [CommentBlock.followsCode_iff (hle.trans hlength)]
  constructor
  · rintro ⟨p, b, hbefore, hat, hblank⟩
    refine ⟨p, hbefore, ?_⟩
    obtain ⟨offset, hscans, hoffset⟩ := Lexemes.exists_scans_behind_mark h
    obtain ⟨hp, -⟩ := List.getElem?_eq_some_iff.1 hat
    rcases Nat.lt_or_ge p offset with hlt | hge
    · rcases hoffset with rfl | ⟨rfl, hmark⟩
      · omega
      · exact .inr (.inr (.inl ⟨hlt, hmark⟩))
    · rcases hscans.covered rfl hge hp with ⟨b', hb', hspace⟩ | ⟨t, ht, -, hinside⟩ | hcomment
      · obtain rfl := Option.some.inj (hat.symm.trans hb')
        rw [isSpace, hblank, Bool.false_or, beq_iff_eq] at hspace
        exact .inr (.inr (.inr (hspace ▸ hat)))
      · exact .inl ⟨t, ht, hinside⟩
      · exact .inr (.inl hcomment)
  · rintro ⟨p, ⟨hlt, hsame⟩, hoccupied⟩
    -- A token or a comment that is on the line before the place ends on it, and shows where it ends.
    have shown {lexeme : Lexeme} {span : Span} (hs : lexemes.Has lexeme span) (hp : Inside span p)
        (hlexeme : lexeme ≠ .token .lineEnd) :
        ∃ q b, OnLineBefore content q c.start ∧ content[q]? = some b ∧ Bytes.isBlank b = false := by
      have hstop := Lexemes.stop_le_start h hs has hp hlt
      obtain ⟨q, b, hq, hat, hblank, hline⟩ := Lexemes.exists_mark h hs hlexeme
      have := Position.line_le_line content hstop
      have := Position.line_le_line content (Nat.le_of_lt hp.2)
      exact ⟨q, b, ⟨Nat.lt_of_lt_of_le hq.2 hstop, by omega⟩, hat, hblank⟩
    rcases hoccupied with ⟨⟨cls, span⟩, ht, hinside⟩ | ⟨d, hd, hinside⟩ | ⟨hmark, rest, hcontent⟩ | htab
    · by_cases hcls : cls = .lineEnd
      · subst hcls
        have lineEnd : lexemes.Has (.token .lineEnd) span := ht
        have hstop := Lexemes.stop_le_start h lineEnd has hinside hlt
        have := Lexemes.line_lt_of_lineEnd h lineEnd hinside
        have := Position.line_le_line content hstop
        omega
      · have token : lexemes.Has (.token cls) span := ht
        exact shown token hinside (by simpa using hcls)
    · have comment : lexemes.Has .comment d := hd
      exact shown comment hinside (by simp)
    · have hat : content[p]? = some byteOrderMark[p] := by
        rw [← hcontent, List.getElem?_append_left hmark, List.getElem?_eq_getElem]
      refine ⟨p, byteOrderMark[p], ⟨hlt, hsame⟩, hat, ?_⟩
      have blank : byteOrderMark.any Bytes.isBlank = false := by decide
      exact Bool.eq_false_iff.2 (List.any_eq_false.1 blank _ (List.getElem_mem _))
    · exact ⟨p, 0x0B, ⟨hlt, hsame⟩, htab, by decide⟩

/-! ### Where a comment goes on -/

/-- Whether all bytes between two offsets are white space. -/
def BlankBetween (content : Bytes) (start stop : Nat) : Prop :=
  ∀ p, start ≤ p → p < stop → ∃ b ∈ content[p]?, Bytes.isBlank b = true

/-- `GoesOn content lexemes c d`: the first comment has nothing before it on its line, and the second begins on the line
after the one where the first ends, with nothing but white space between them. -/
structure GoesOn (content : Bytes) (lexemes : Lexemes) (c d : Span) : Prop where
  /-- Nothing stands before the first comment on its line. -/
  free : ¬ Preceded content lexemes c.start
  /-- The second comment begins on the line after the first. -/
  nextLine : (Position.ofOffset content d.start).line = (Position.ofOffset content c.stop).line + 1
  /-- Between the comments there is only white space. -/
  blank : BlankBetween content c.stop d.start

namespace CommentBlock

/-- Whether a comment belongs to the block of the comment before it. -/
def goesOn (content : Bytes) (c d : Span) : Bool :=
  !followsCode content c.start && !followsCode content d.start && adjacent content c.stop d.start

/-- Two offsets are adjacent if there is only white space between them and they are at most one line apart. -/
theorem adjacent_iff {stop start : Nat} (hle : start ≤ content.length) :
    adjacent content stop start = true ↔ stop ≤ start ∧ BlankBetween content stop start ∧
      (Position.ofOffset content start).line ≤ (Position.ofOffset content stop).line + 1 := by
  by_cases hlt : stop ≤ start
  · have gap : content.extract? ⟨stop, start⟩ = some ((content.drop stop).take (start - stop)) := if_pos ⟨hlt, hle⟩
    have blank : ((content.drop stop).take (start - stop)).all Bytes.isBlank = true ↔
        BlankBetween content stop start := by
      rw [List.all_eq_true]
      constructor
      · intro hall p hstop hp
        have hat : content[p]? = some content[p] := List.getElem?_eq_getElem _
        refine ⟨content[p], hat, hall _ (List.mem_iff_getElem?.2 ⟨p - stop, ?_⟩)⟩
        rw [List.getElem?_take_of_lt (by omega), List.getElem?_drop, Nat.add_sub_cancel' hstop, hat]
      · intro hall b hb
        obtain ⟨i, hi, hget⟩ := List.mem_take_iff_getElem.1 hb
        obtain ⟨b', hb', hblank⟩ := hall (stop + i) (Nat.le_add_right _ _) (by omega)
        rw [← List.getElem?_drop] at hb'
        rw [List.length_drop] at hi
        have := (List.getElem?_eq_getElem (by rw [List.length_drop]; omega)).symm.trans hb'
        rw [hget] at this
        rwa [Option.some.inj this]
    rw [adjacent, gap]
    simp only [Bool.and_eq_true, blank, decide_eq_true_eq, hlt, true_and, Position.newlines_between content hlt]
    exact and_congr_right fun _ => Nat.sub_le_iff_le_add'
  · have gap : content.extract? ⟨stop, start⟩ = none := if_neg fun h => hlt h.1
    rw [adjacent, gap]
    simp [hlt]

/-- **A comment belongs to the block of the comment before it** if it goes on there on the next line. On the same line
it does not: there the comment before it shows. -/
theorem goesOn_iff (h : Lexemes.ofBytes? content = some lexemes) (hc : c ∈ lexemes.comments)
    (hd : d ∈ lexemes.comments) : goesOn content c d = true ↔ GoesOn content lexemes c d := by
  have hasc : lexemes.Has .comment c := hc
  have hasd : lexemes.Has .comment d := hd
  have hlength := Lexemes.stop_le_length h hasd
  have inside : d.start ≤ content.length := hlength.1.trans hlength.2
  rw [goesOn, Bool.and_eq_true, Bool.and_eq_true, Bool.not_eq_true', Bool.not_eq_true', adjacent_iff inside,
    ← Bool.not_eq_true, ← Bool.not_eq_true, followsCode_iff_preceded h hc]
  constructor
  · rintro ⟨⟨hfree, hcode⟩, hle, hblank, hline⟩
    refine ⟨hfree, ?_, hblank⟩
    by_contra hsame
    refine hcode ((followsCode_iff inside).2 ?_)
    obtain ⟨p, b, hp, hat, hb, hmark⟩ := Lexemes.exists_mark h hasc (by simp)
    have := Position.line_le_line content hle
    exact ⟨p, b, ⟨Nat.lt_of_lt_of_le hp.2 hle, by omega⟩, hat, hb⟩
  · rintro ⟨hfree, hline, hblank⟩
    have hle : c.stop ≤ d.start := by
      by_contra hlt
      have := Position.line_le_line content (Nat.le_of_not_le hlt)
      omega
    refine ⟨⟨hfree, fun hcode => ?_⟩, hle, hblank, Nat.le_of_eq hline⟩
    obtain ⟨p, b, ⟨hlt, hsame⟩, hat, hb⟩ := (followsCode_iff inside).1 hcode
    rcases Nat.lt_or_ge p c.stop with hp | hp
    · have := Position.line_le_line content (Nat.le_of_lt hp)
      omega
    · obtain ⟨b', hb', hblank⟩ := hblank p hp hlt
      rw [Option.some.inj (hat.symm.trans hb'), hblank] at hb
      cases hb

/-! ### Blocks and runs -/

/-- `IsBlockOf content run b`: the block is made from the comments of the run. -/
structure IsBlockOf (content : Bytes) (run : List Span) (b : CommentBlock) : Prop where
  /-- The block begins where its first comment does. -/
  start : ∀ c ∈ run.head?, b.span.start = c.start
  /-- The block ends where its last comment does. -/
  stop : ∀ c ∈ run.getLast?, b.span.stop = c.stop ∧ b.stop = Position.ofOffset content c.stop
  /-- The text is made from those of the comments, one below the other. -/
  text : b.text = "\n".intercalate (run.map fun c => commentText (content.text c))
  /-- The block is trailing if there is something before its first comment. -/
  trailing : ∀ c ∈ run.head?, b.trailing = followsCode content c.start

/-- A comment makes up a block alone. -/
theorem isBlockOf_ofComment (c : Span) : IsBlockOf content [c] (ofComment content c) where
  start d hd := by rw [← Option.some.inj hd]; rfl
  stop d hd := by rw [← Option.some.inj hd]; exact ⟨rfl, rfl⟩
  text := by simp [ofComment, String.intercalate_singleton]
  trailing d hd := by rw [← Option.some.inj hd]; rfl

/-- A block with another comment appended to it is made from one comment more. -/
theorem IsBlockOf.append {run : List Span} {b : CommentBlock} (hb : IsBlockOf content run b) (hrun : run ≠ [])
    (c : Span) : IsBlockOf content (run ++ [c]) (b.append (ofComment content c)) := by
  have first : (run ++ [c]).head? = run.head? := List.head?_append_of_ne_nil _ hrun
  refine ⟨first ▸ hb.start, fun d hd => ?_, ?_, first ▸ hb.trailing⟩
  · rw [List.getLast?_concat] at hd
    obtain rfl := Option.some.inj hd
    exact ⟨rfl, rfl⟩
  · rw [List.map_append, String.intercalate_append_of_ne_nil (by simpa using hrun) (by simp), ← hb.text]
    simp [CommentBlock.append, ofComment, String.intercalate_singleton]

/-- The blocks from one on are those of the maximal runs, if that one is made from the run that the comments may go on
with. What is before the last comment of a block tells whether the block is trailing, as only comments with nothing
before them come together. -/
theorem isBlockOf_blocksFrom {spans run : List Span} {b : CommentBlock} {last : Span}
    (hrun : run.IsChain fun c d => goesOn content c d = true) (hlast : run.getLast? = some last)
    (hb : IsBlockOf content run b) (htrailing : b.trailing = followsCode content last.start) :
    List.Forall₂ (IsBlockOf content) ((run ++ spans).splitBy (goesOn content)) (blocksFrom content b spans) := by
  have hne : run ≠ [] := fun hnil => by rw [hnil] at hlast; cases hlast
  induction spans generalizing run b last with
  | nil =>
      rw [List.append_nil, List.splitBy_of_isChain hne hrun, blocksFrom]
      exact .cons hb .nil
  | cons d later ih =>
      have same : joins content b (ofComment content d) = goesOn content last d := by
        rw [joins, goesOn, htrailing, (hb.stop last hlast).1]
        rfl
      rw [blocksFrom, same]
      split
      · rename_i hgoes
        rw [List.append_cons]
        refine ih ?_ List.getLast?_concat (hb.append hne d) ?_ (by simp)
        · rw [List.isChain_append]
          refine ⟨hrun, .singleton d, fun c hc e he => ?_⟩
          rw [Option.some.inj (hc.symm.trans hlast), ← Option.some.inj he]
          exact hgoes
        · rw [goesOn, Bool.and_eq_true, Bool.and_eq_true, Bool.not_eq_true', Bool.not_eq_true'] at hgoes
          rw [hgoes.1.2]
          exact htrailing.trans hgoes.1.1
      · rename_i hgoes
        rw [List.splitBy_append_cons later, List.splitBy_of_isChain hne hrun]
        · exact .cons hb (ih (.singleton d) rfl (isBlockOf_ofComment d) rfl (by simp))
        · intro c hc
          rw [Option.some.inj (hc.symm.trans hlast), ← Bool.not_eq_true]
          exact hgoes

/-- **Blocks are the maximal runs**: each is made from the comments of one of them. -/
theorem isBlockOf_blocks (content : Bytes) (spans : List Span) :
    List.Forall₂ (IsBlockOf content) (spans.splitBy (goesOn content)) (blocks content spans) := by
  cases spans with
  | nil => exact .nil
  | cons c later => exact isBlockOf_blocksFrom (.singleton c) rfl (isBlockOf_ofComment c) rfl

end CommentBlock

/-- **The blocks of a source are runs of comments.** The comments fall into runs, as long as possible, in which each
comment begins on the line after the one before it ends, with nothing but white space between them, and whose first
comment has nothing before it on its line. Each run makes up a block, and a block is trailing exactly if there is
something before its first comment on the line: a token, another comment, the byte order mark or a vertical tab. -/
theorem blocks_eq_runs {f : Source} (hf : Source.parse? content = some f) :
    ∃ lexemes, Lexemes.ofBytes? content = some lexemes ∧ f.comments = lexemes.comments ∧
      ∃ runs : List (List Span), runs.flatten = lexemes.comments ∧ [] ∉ runs ∧
        (∀ run ∈ runs, run.IsChain (GoesOn content lexemes)) ∧
        runs.IsChain (fun run next => ∀ c ∈ run.getLast?, ∀ d ∈ next.head?, ¬ GoesOn content lexemes c d) ∧
        List.Forall₂ (fun run b => CommentBlock.IsBlockOf content run b ∧
          ∀ c ∈ run.head?, (b.trailing = true ↔ Preceded content lexemes c.start))
          runs (CommentBlock.blocks content f.comments) := by
  obtain ⟨rfl, lexemes, hlexemes, hcomments⟩ := Source.exists_lexemes hf
  refine ⟨lexemes, hlexemes, hcomments, lexemes.comments.splitBy (CommentBlock.goesOn f.content),
    List.flatten_splitBy _ _, List.nil_notMem_splitBy _ _, ?_, ?_, ?_⟩
  all_goals
    have member {run : List Span} (hrun : run ∈ lexemes.comments.splitBy (CommentBlock.goesOn f.content)) {c : Span}
        (hc : c ∈ run) : c ∈ lexemes.comments := by
      rw [← List.flatten_splitBy (CommentBlock.goesOn f.content) lexemes.comments]
      exact List.mem_flatten_of_mem hrun hc
  · intro run hrun
    refine (List.isChain_of_mem_splitBy hrun).imp_of_mem_imp fun c d hc hd hgoes => ?_
    exact (CommentBlock.goesOn_iff hlexemes (member hrun hc) (member hrun hd)).1 hgoes
  · refine (List.isChain_getLast_head_splitBy (CommentBlock.goesOn f.content) lexemes.comments).imp_of_mem_imp ?_
    rintro run next hrun hnext ⟨hne, hne', hgoes⟩ c hc d hd hgoesOn
    obtain rfl : run.getLast hne = c := Option.some.inj ((List.getLast?_eq_some_getLast hne).symm.trans hc)
    obtain rfl : next.head hne' = d := Option.some.inj ((List.head?_eq_some_head hne').symm.trans hd)
    rw [(CommentBlock.goesOn_iff hlexemes (member hrun (List.getLast_mem hne)) (member hnext (List.head_mem hne'))).2
      hgoesOn] at hgoes
    cases hgoes
  · rw [hcomments]
    have made := (List.forall₂_and_left _ _).2 ⟨fun run hrun c hc => member hrun (c := c) hc,
      CommentBlock.isBlockOf_blocks f.content lexemes.comments⟩
    refine made.imp fun run b ⟨hmember, hb⟩ => ⟨hb, fun c hc => ?_⟩
    rw [hb.trailing c hc, followsCode_iff_preceded hlexemes (hmember c (List.mem_of_head? hc))]

/-- A file that begins with two comments, one below the other. -/
def commentsBelow : Bytes := Bytes.ofString "// a\n// b\npackage p\n"

/-- The two comments are one run and make up one block. -/
theorem blocks_eq_runs_commentsBelow :
    ∃ f, Source.parse? commentsBelow = some f ∧ ∃ lexemes, Lexemes.ofBytes? commentsBelow = some lexemes ∧
      GoesOn commentsBelow lexemes ⟨0, 4⟩ ⟨5, 9⟩ ∧ ∃ b, CommentBlock.blocks commentsBelow f.comments = [b] ∧
        CommentBlock.IsBlockOf commentsBelow [⟨0, 4⟩, ⟨5, 9⟩] b := by
  have read : (Source.parse? commentsBelow).map (fun f =>
      (f.comments, (CommentBlock.blocks commentsBelow f.comments).length)) = some ([⟨0, 4⟩, ⟨5, 9⟩], 1) := by
    decide +kernel
  obtain ⟨f, hf, hread⟩ := Option.map_eq_some_iff.1 read
  obtain ⟨hcomments, hlength⟩ := Prod.mk.inj hread
  obtain ⟨lexemes, hlexemes, hsame, runs, hflatten, -, hchain, -, hblocks⟩ := blocks_eq_runs hf
  obtain ⟨b, hb⟩ := List.length_eq_one_iff.1 hlength
  rw [hb] at hblocks
  obtain ⟨run, rest, ⟨hrun, -⟩, hrest, rfl⟩ := List.forall₂_cons_right_iff.1 hblocks
  obtain rfl := List.forall₂_nil_right_iff.1 hrest
  rw [List.flatten_singleton, ← hsame, hcomments] at hflatten
  subst hflatten
  exact ⟨f, hf, lexemes, hlexemes, List.isChain_pair.1 (hchain _ List.mem_cons_self), b, hb, hrun⟩

/-! ### Two comments on one line -/

/-- A file that begins with two comments on one line. -/
def commentsOnOneLine : Bytes := Bytes.ofString "/* a */ /* b */\npackage p\n"

/-- **A comment trails the comment before it on its line**, though there is no code: two comments on the first line of
a file, with only a blank between them and no token before them, make up two blocks, and the second is trailing. -/
theorem exists_trailing_without_code :
    ∃ f lexemes, Source.parse? commentsOnOneLine = some f ∧ Lexemes.ofBytes? commentsOnOneLine = some lexemes ∧
      f.comments = lexemes.comments ∧ lexemes.comments = [⟨0, 7⟩, ⟨8, 15⟩] ∧
      (Position.ofOffset commentsOnOneLine 8).line = (Position.ofOffset commentsOnOneLine 7).line ∧
      BlankBetween commentsOnOneLine 7 8 ∧ (∀ t ∈ lexemes.tokens, 15 ≤ t.span.start) ∧
      CommentBlock.blocks commentsOnOneLine f.comments =
        [⟨⟨0, 7⟩, ⟨1, 8⟩, "/* a */", false⟩, ⟨⟨8, 15⟩, ⟨1, 16⟩, "/* b */", true⟩] := by
  have read : (Source.parse? commentsOnOneLine).map (fun f => CommentBlock.blocks commentsOnOneLine f.comments) =
      some [⟨⟨0, 7⟩, ⟨1, 8⟩, "/* a */", false⟩, ⟨⟨8, 15⟩, ⟨1, 16⟩, "/* b */", true⟩] := by
    decide +kernel
  have scanned : (Lexemes.ofBytes? commentsOnOneLine).map (fun lexemes =>
      (lexemes.comments, lexemes.tokens.all fun t => 15 ≤ t.span.start)) = some ([⟨0, 7⟩, ⟨8, 15⟩], true) := by
    decide +kernel
  obtain ⟨f, hf, hblocks⟩ := Option.map_eq_some_iff.1 read
  obtain ⟨-, lexemes, hlexemes, hcomments⟩ := Source.exists_lexemes hf
  rw [hlexemes, Option.map_some, Option.some.injEq, Prod.mk.injEq, List.all_eq_true] at scanned
  refine ⟨f, lexemes, hf, hlexemes, hcomments, scanned.1, by decide +kernel, ?_, by simpa using scanned.2, hblocks⟩
  intro p hp hlt
  obtain rfl : p = 7 := by omega
  exact ⟨0x20, by decide +kernel, by decide⟩

end Go

end SuiteReport
