import SuiteReport.Proofs.Documentation
import SuiteReport.Proofs.Source.Function
import SuiteReport.Proofs.Text.Encoding
/-!
# What stands between a comment and what it documents

The lexemes of a source leave no byte out: behind a place where lexemes begin, every byte is white space or
belongs to a token or to a comment. A block that documents a place ends before it, is near and has at most one
line feed behind it; nothing else is asked. So what lies between is white space as far as no code and no other
comment stands there, but code may stand there, as short as it has to be, and so may the code that the block
itself trails.

## Main definitions

* `Covered`: what a byte of a source belongs to.

## Main results

* `Lexemes.Scans.covered`: the lexemes of a source leave no byte out.
* `exists_block_of_documentationAt`: what is known of the block that documents a place.
-/

namespace SuiteReport.Go

/-! ### What a byte belongs to -/

/-- White space between the lexemes of a source; the vertical tab is white space too. -/
def isSpace (b : UInt8) : Bool := Bytes.isBlank b || b == 0x0B

/-- Whether the offset lies in a span. -/
def Inside (s : Span) (offset : Nat) : Prop := s.start ≤ offset ∧ offset < s.stop

/-- `Covered content lexemes offset`: the byte there is white space or belongs to a token that is no line end or
to a comment. -/
def Covered (content : Bytes) (lexemes : Lexemes) (offset : Nat) : Prop :=
  (∃ b, content[offset]? = some b ∧ isSpace b) ∨
    (∃ t ∈ lexemes.tokens, t.cls ≠ .lineEnd ∧ Inside t.span offset) ∨ ∃ c ∈ lexemes.comments, Inside c offset

namespace Lexeme

/-- White space and line ends are single characters. -/
theorem exists_space_of_next? {g : Glyph} {gs : List Glyph} {lexeme : Lexeme} {count : Nat}
    (h : next? (g :: gs) = some (lexeme, count)) (hspace : lexeme = .blank ∨ lexeme = .token .lineEnd) :
    count = 1 ∧ ∃ c, g.char? = some c ∧ (isBlank c = true ∨ c = '\n') := by
  rw [next?] at h
  split at h
  · rename_i hblank
    obtain ⟨c, hc, hblank⟩ := (Option.any_eq_true _ _).1 hblank
    obtain ⟨-, rfl⟩ := Prod.mk.inj (Option.some.inj h)
    exact ⟨rfl, c, hc, .inl hblank⟩
  split at h
  · rename_i hline
    obtain ⟨c, hc, hline⟩ := (Option.any_eq_true _ _).1 hline
    obtain ⟨-, rfl⟩ := Prod.mk.inj (Option.some.inj h)
    exact ⟨rfl, c, hc, .inr (by simpa using hline)⟩
  -- Whatever else begins here is a comment, a word, a literal or a symbol.
  exfalso
  rcases Option.or_eq_some_iff.1 (Option.orElse_eq_or ▸ h) with h | ⟨-, h⟩
  · obtain ⟨n, -, h⟩ := Option.map_eq_some_iff.1 h
    obtain ⟨rfl, -⟩ := Prod.mk.inj h
    simp at hspace
  rcases Option.or_eq_some_iff.1 (Option.orElse_eq_or ▸ h) with h | ⟨-, h⟩
  · obtain ⟨-, h⟩ := Option.ite_none_right_eq_some.1 h
    obtain ⟨rfl, -⟩ := Prod.mk.inj (Option.some.inj h)
    simp at hspace
  rcases Option.or_eq_some_iff.1 (Option.orElse_eq_or ▸ h) with h | ⟨-, h⟩
  · obtain ⟨c, rfl⟩ := exists_eq_literal_of_literal? h
    simp at hspace
  · obtain ⟨entry, -, h⟩ := Option.map_eq_some_iff.1 h
    obtain ⟨rfl, -⟩ := Prod.mk.inj h
    simp at hspace

end Lexeme

namespace Lexemes

/-- What a byte belongs to behind a lexeme, it belongs to with the lexeme before it. -/
theorem Covered.cons {content : Bytes} {later : Lexemes} {offset : Nat} (h : Covered content later offset)
    (span : Span) (lexeme : Lexeme) : Covered content (later.cons span lexeme) offset := by
  rcases h with h | ⟨t, ht, h⟩ | ⟨c, hc, h⟩
  · exact .inl h
  · refine .inr (.inl ⟨t, ?_, h⟩)
    cases lexeme with
    | blank | comment => exact ht
    | token cls => exact List.mem_cons_of_mem _ ht
  · refine .inr (.inr ⟨c, ?_, h⟩)
    cases lexeme with
    | blank | token => exact hc
    | comment => exact List.mem_cons_of_mem _ hc

/-- A glyph of white space is one byte of white space. -/
theorem isSpace_of_glyph {content : Bytes} {offset : Nat} {g : Glyph} {gs : List Glyph}
    (hgs : Bytes.glyphs (content.drop offset) = g :: gs) {c : Char} (hc : g.char? = some c)
    (hspace : Lexeme.isBlank c = true ∨ c = '\n') :
    g.width = 1 ∧ ∃ b, content[offset]? = some b ∧ isSpace b = true := by
  obtain ⟨hdecode, hwidth⟩ := (Bytes.of_glyphs_eq_cons hgs).1 c hc
  obtain ⟨rest, hrest⟩ := Bytes.exists_of_decodeChar? hdecode
  have first : content[offset]? = (String.utf8EncodeChar c ++ rest)[0]? := by
    rw [← hrest, List.getElem?_drop, Nat.add_zero]
  rw [hwidth, first]
  have single : c = '\t' ∨ c = '\x0B' ∨ c = '\x0C' ∨ c = '\r' ∨ c = ' ' ∨ c = '\n' := by
    simpa [Lexeme.isBlank, or_assoc] using hspace
  rcases single with rfl | rfl | rfl | rfl | rfl | rfl
  all_goals exact ⟨rfl, _, rfl, by decide⟩

/-- Only at the end of a content are there no glyphs. -/
theorem length_le_of_glyphs_eq_nil {content : Bytes} {offset : Nat} (h : Bytes.glyphs (content.drop offset) = []) :
    content.length ≤ offset := by
  cases hrest : content.drop offset with
  | nil => exact List.drop_eq_nil_iff.1 hrest
  | cons b rest =>
      rw [hrest, Bytes.glyphs, Bytes.glyphsAfter] at h
      split at h <;> cases h

/-- **Lexemes leave no byte out.** A byte belongs to the first lexeme or is behind it. -/
theorem Scans.covered {content : Bytes} {offset : Nat} {gs : List Glyph} {lexemes : Lexemes}
    (h : Scans offset gs lexemes) (hgs : Bytes.glyphs (content.drop offset) = gs) {o : Nat}
    (hle : offset ≤ o) (hlt : o < content.length) : Covered content lexemes o := by
  induction h with
  | nil =>
      have := length_le_of_glyphs_eq_nil hgs
      omega
  | @cons offset count g gs lexeme later hnext hlater ih =>
      by_cases hstop : o < offset + Bytes.widthOf ((g :: gs).take count)
      · have space (hspace : lexeme = .blank ∨ lexeme = .token .lineEnd) :
            ∃ b, content[o]? = some b ∧ isSpace b = true := by
          obtain ⟨rfl, c, hc, hspace⟩ := Lexeme.exists_space_of_next? hnext hspace
          obtain ⟨hwidth, hbyte⟩ := isSpace_of_glyph hgs hc hspace
          obtain rfl : o = offset := by
            simp only [List.take_succ_cons, List.take_zero, Bytes.widthOf, List.map_cons, List.map_nil,
              List.foldr_cons, List.foldr_nil, hwidth] at hstop
            omega
          exact hbyte
        cases lexeme with
        | blank => exact .inl (space (.inl rfl))
        | comment => exact .inr (.inr ⟨_, List.mem_cons_self, hle, hstop⟩)
        | token cls =>
            by_cases hline : cls = .lineEnd
            · exact .inl (space (.inr (hline ▸ rfl)))
            · exact .inr (.inl ⟨_, List.mem_cons_self, hline, hle, hstop⟩)
      · have hrest := Bytes.glyphs_drop hgs count
        rw [List.drop_drop] at hrest
        exact Covered.cons (ih hrest (Nat.le_of_not_lt hstop)) _ _

/-- Comments begin behind the place where the lexemes begin. -/
theorem Scans.le_start_of_mem {offset : Nat} {gs : List Glyph} {lexemes : Lexemes}
    (h : Scans offset gs lexemes) {c : Span} (hc : c ∈ lexemes.comments) :
    offset ≤ c.start ∧ c.start ≤ c.stop := by
  induction h with
  | nil => cases hc
  | @cons offset count g gs lexeme later hnext hlater ih =>
      have behind (hc : c ∈ later.comments) : offset ≤ c.start ∧ c.start ≤ c.stop :=
        ⟨Nat.le_trans (Nat.le_add_right _ _) (ih hc).1, (ih hc).2⟩
      cases lexeme with
      | blank | token => exact behind hc
      | comment =>
          rcases List.mem_cons.1 hc with rfl | hc
          · exact ⟨Nat.le_refl _, Nat.le_add_right _ _⟩
          · exact behind hc

/-- **Behind a comment no byte is left out**, whether the source begins with a byte order mark or not. -/
theorem covered_of_comment {content : Bytes} {lexemes : Lexemes} (h : ofBytes? content = some lexemes) {c : Span}
    (hc : c ∈ lexemes.comments) {o : Nat} (hle : c.stop ≤ o) (hlt : o < content.length) :
    Covered content lexemes o := by
  obtain ⟨offset, hscans⟩ := exists_scans h
  obtain ⟨hstart, hstop⟩ := hscans.le_start_of_mem hc
  exact hscans.covered rfl (hstart.trans (hstop.trans hle)) hlt

end Lexemes

/-! ### The block that documents a place -/

namespace CommentBlock

/-- A block ends where one of the comments ends, if this holds of the block that the comments may go on with. -/
theorem exists_comment_of_mem_blocksFrom {content : Bytes} {spans : List Span} {b first : CommentBlock}
    (h : b ∈ blocksFrom content first spans) :
    b.span.stop = first.span.stop ∨ ∃ c ∈ spans, b.span.stop = c.stop := by
  induction spans generalizing first with
  | nil =>
      obtain rfl := List.mem_singleton.1 h
      exact .inl rfl
  | cons span later ih =>
      have goesOn {next : CommentBlock} (hnext : next.span.stop = span.stop) (h : b ∈ blocksFrom content next later) :
          b.span.stop = first.span.stop ∨ ∃ c ∈ span :: later, b.span.stop = c.stop := by
        rcases ih h with hb | ⟨c, hc, hb⟩
        · exact .inr ⟨span, List.mem_cons_self, hb.trans hnext⟩
        · exact .inr ⟨c, List.mem_cons_of_mem _ hc, hb⟩
      rw [blocksFrom] at h
      split at h
      · exact goesOn rfl h
      · rcases List.mem_cons.1 h with rfl | h
        · exact .inl rfl
        · exact goesOn rfl h

/-- A block ends where one of the comments ends. -/
theorem exists_comment_of_mem_blocks {content : Bytes} {spans : List Span} {b : CommentBlock}
    (h : b ∈ blocks content spans) : ∃ c ∈ spans, b.span.stop = c.stop := by
  cases spans with
  | nil => cases h
  | cons span later =>
      rcases exists_comment_of_mem_blocksFrom h with hb | ⟨c, hc, hb⟩
      · exact ⟨span, List.mem_cons_self, hb⟩
      · exact ⟨c, List.mem_cons_of_mem _ hc, hb⟩

end CommentBlock

/-- What a file is read from. -/
theorem Source.exists_lexemes {content : Bytes} {f : Source} (h : Source.parse? content = some f) :
    f.content = content ∧ ∃ lexemes, Lexemes.ofBytes? content = some lexemes ∧ f.comments = lexemes.comments := by
  obtain ⟨lexemes, hlexemes, h⟩ := Option.bind_eq_some_iff.1 h
  obtain ⟨items, -, h⟩ := Option.bind_eq_some_iff.1 h
  obtain rfl := Option.some.inj h
  exact ⟨rfl, lexemes, hlexemes, rfl⟩

/-- **The block that documents a place.** If something documents a place of a source, it is the text of the first
block that ends before the place and at most `maxGap` bytes away from it. Between the two there is at most one
line feed, and every byte there is white space or belongs to a token or to a comment of the source. -/
theorem exists_block_of_documentationAt {content : Bytes} {f : Source} {maxGap target : Nat}
    (hf : Source.parse? content = some f) (ht : target ≤ content.length)
    (h : f.documentationAt maxGap target ≠ "") :
    ∃ lexemes, Lexemes.ofBytes? content = some lexemes ∧
      ∃ before b after, CommentBlock.blocks content lexemes.comments = before ++ b :: after ∧
        f.documentationAt maxGap target = b.text ∧
        (∀ a ∈ before, ¬ (a.span.stop ≤ target ∧ target - a.span.stop ≤ maxGap)) ∧
        b.span.stop ≤ target ∧ target - b.span.stop ≤ maxGap ∧
        newlinesBetween content b.span.stop target ≤ 1 ∧
        ∀ o, b.span.stop ≤ o → o < target → Covered content lexemes o := by
  obtain ⟨rfl, lexemes, hlexemes, hcomments⟩ := Source.exists_lexemes hf
  refine ⟨lexemes, hlexemes, ?_⟩
  rw [← hcomments]
  cases hfirst : (CommentBlock.blocks f.content f.comments).find?
      (CommentBlock.reaches (Anchor.ofOffset f.content target) maxGap) with
  | none =>
      rw [Source.documentationAt, documentation, hfirst] at h
      exact absurd rfl h
  | some b =>
      obtain ⟨hreaches, before, after, hblocks, hbefore⟩ := List.find?_eq_some_iff_append.1 hfirst
      obtain ⟨hle, hnear⟩ := CommentBlock.reaches_ofOffset.1 hreaches
      have htext := documentation_of_first ht hfirst
      have hline : newlinesBetween f.content b.span.stop target ≤ 1 := by
        by_contra hline
        rw [htext, if_pos (Nat.lt_of_not_le hline)] at h
        exact h rfl
      refine ⟨before, b, after, hblocks, ?_, ?_, hle, hnear, hline, ?_⟩
      · rw [htext, if_neg (Nat.not_lt.2 hline)]
      · intro a ha hreach
        have := hbefore a ha
        rw [CommentBlock.reaches_ofOffset.2 hreach] at this
        cases this
      · intro o ho hlt
        have hb : b ∈ CommentBlock.blocks f.content f.comments := List.mem_of_find?_eq_some hfirst
        obtain ⟨c, hc, hstop⟩ := CommentBlock.exists_comment_of_mem_blocks hb
        exact Lexemes.covered_of_comment hlexemes (hcomments ▸ hc) (hstop ▸ ho) (by omega)

/-! ### Code behind a comment -/

/-- A file with a comment just before its package clause, and one behind a declaration. -/
def commentsAtCode : Bytes := Bytes.ofString "/* a */package p\nvar x = 1 // b\nfunc TestX() \x7b\x7d\n"

/-- The comment before the package clause. -/
def leadingComment : CommentBlock := ⟨⟨0, 7⟩, ⟨1, 8⟩, "/* a */", false⟩

/-- The comment behind the declaration. -/
def trailingComment : CommentBlock := ⟨⟨27, 31⟩, ⟨2, 15⟩, "// b", true⟩

/-- The comments are two blocks, and the declarations behind them start at offsets 17 and 32. -/
theorem exists_parse?_commentsAtCode :
    ∃ f, Source.parse? commentsAtCode = some f ∧ f.content = commentsAtCode ∧
      CommentBlock.blocks f.content f.comments = [leadingComment, trailingComment] ∧
      (∃ n ∈ f.tree.children, n.kind = .varDeclaration ∧ n.span.start = 17) ∧
      ∃ n ∈ f.tree.children, n.kind = .functionDeclaration ∧ n.span.start = 32 := by
  have read : (Source.parse? commentsAtCode).map (fun f =>
      (f.content, CommentBlock.blocks f.content f.comments,
        f.tree.children.map fun n => (n.kind, n.span.start))) =
        some (commentsAtCode, [leadingComment, trailingComment],
          [(.comment, 0), (.packageClause, 7), (.varDeclaration, 17), (.comment, 27), (.functionDeclaration, 32)]) := by
    decide +kernel
  obtain ⟨f, hf, hread⟩ := Option.map_eq_some_iff.1 read
  simp only [Prod.mk.injEq] at hread
  obtain ⟨hcontent, hblocks, hchildren⟩ := hread
  have child (kind : Kind) (start : Nat) (h : (kind, start) ∈ f.tree.children.map fun n => (n.kind, n.span.start)) :
      ∃ n ∈ f.tree.children, n.kind = kind ∧ n.span.start = start := by
    obtain ⟨n, hn, heq⟩ := List.mem_map.1 h
    exact ⟨n, hn, Prod.mk.inj heq⟩
  rw [hchildren] at child
  exact ⟨f, hf, hcontent, hblocks, child _ _ (by decide), child _ _ (by decide)⟩

/-- The declaration of the variable is documented by the comment before the package clause. -/
theorem exists_block_of_documentationAt_commentsAtCode :
    ∃ f, Source.parse? commentsAtCode = some f ∧ 17 ≤ commentsAtCode.length ∧ f.documentationAt 10 17 ≠ "" ∧
      ∃ b ∈ CommentBlock.blocks commentsAtCode f.comments, b.span.stop ≤ 17 ∧ 17 - b.span.stop ≤ 10 ∧
        newlinesBetween commentsAtCode b.span.stop 17 ≤ 1 := by
  obtain ⟨f, hf, hcontent, hblocks, -⟩ := exists_parse?_commentsAtCode
  have inside : 17 ≤ commentsAtCode.length := by decide +kernel
  have documented : f.documentationAt 10 17 ≠ "" := by
    rw [Source.documentationAt, hblocks, hcontent]
    decide +kernel
  obtain ⟨lexemes, hlexemes, before, b, after, hsplit, -, -, hle, hnear, hline, -⟩ :=
    exists_block_of_documentationAt hf inside documented
  have hcomments : f.comments = lexemes.comments := by
    obtain ⟨-, others, hothers, hcomments⟩ := Source.exists_lexemes hf
    rw [hcomments, Option.some.inj (hothers.symm.trans hlexemes)]
  refine ⟨f, hf, inside, documented, b, ?_, hle, hnear, hline⟩
  rw [hcomments, hsplit]
  simp

/-- **Code may stand between a block and what it documents**, and the block may trail code on an earlier line: the
package clause stands between the first comment and the variable that it documents, and the second comment trails
the declaration of the variable and documents the function. -/
theorem exists_documentation_behind_code :
    ∃ f, Source.parse? commentsAtCode = some f ∧
      CommentBlock.blocks f.content f.comments = [leadingComment, trailingComment] ∧
      (∃ n ∈ f.tree.children, n.kind = .varDeclaration ∧ f.documentationAt 10 n.span.start = leadingComment.text ∧
        leadingComment.text ≠ "" ∧ leadingComment.text ≠ trailingComment.text ∧
        ∃ o b, leadingComment.span.stop ≤ o ∧ o < n.span.start ∧ f.content[o]? = some b ∧ isSpace b = false) ∧
      ∃ n ∈ f.tree.children, n.kind = .functionDeclaration ∧
        f.documentationAt 10 n.span.start = trailingComment.text ∧ trailingComment.trailing = true ∧
        trailingComment.stop.line < (Position.ofOffset f.content n.span.start).line := by
  obtain ⟨f, hf, hcontent, hblocks, ⟨n, hn, hvariable, hstart⟩, m, hm, hfunction, hlater⟩ :=
    exists_parse?_commentsAtCode
  refine ⟨f, hf, hblocks, ⟨n, hn, hvariable, ?_, by decide, by decide, 7, 'p'.toUInt8, by decide, ?_, ?_, by decide⟩,
    m, hm, hfunction, ?_, rfl, ?_⟩
  · rw [Source.documentationAt, hblocks, hstart, hcontent]
    decide +kernel
  · rw [hstart]
    decide
  · rw [hcontent]
    decide +kernel
  · rw [Source.documentationAt, hblocks, hlater, hcontent]
    decide +kernel
  · rw [hlater, hcontent]
    decide +kernel

end SuiteReport.Go
