import SuiteReport.Go.Source
import SuiteReport.Proofs.Position
import SuiteReport.Go.CommentBlock
/-!
# What documents a place

A comment block documents a place if it is the first block that reaches the place and stands close to it. In
the bytes that the blocks were made from, the place where a block ends is found again by its line and column,
so what lies between the block and the place is just the bytes between two offsets. Hence a block that stands
directly before a place documents it, unless an earlier block reaches the place too: then the earlier block
decides, and where it stands too far above, nothing documents the place.

## Main results

* `stop_of_mem_blocks`: the end of a block is the position of the offset where it ends.
* `documentation_of_first`: the first block that reaches a place documents it unless more than one line feed
  lies between.
* `documentation_of_adjacent`: what documents a place with a block directly before it.
* `documentation_eq`: what documents a place when the bytes that are held may be any.
-/

namespace SuiteReport.Go

namespace CommentBlock

/-- The end of a block is the position of the offset where it ends, if this holds of the block that the comments
may go on with. -/
theorem stop_of_mem_blocksFrom {content : Bytes} {spans : List Span} {b first : CommentBlock}
    (hfirst : first.stop = Position.ofOffset content first.span.stop)
    (h : b ∈ blocksFrom content first spans) : b.stop = Position.ofOffset content b.span.stop := by
  induction spans generalizing first with
  | nil =>
      obtain rfl := List.mem_singleton.1 h
      exact hfirst
  | cons span later ih =>
      rw [blocksFrom] at h
      split at h
      · exact ih rfl h
      · rcases List.mem_cons.1 h with rfl | h
        · exact hfirst
        · exact ih rfl h

/-- The end of a block is the position of the offset where it ends. -/
theorem stop_of_mem_blocks {content : Bytes} {spans : List Span} {b : CommentBlock}
    (h : b ∈ blocks content spans) : b.stop = Position.ofOffset content b.span.stop := by
  cases spans with
  | nil => cases h
  | cons span later => exact stop_of_mem_blocksFrom rfl h

/-- In the bytes that a block was made from, what lies between the block and a place behind it are the bytes
between the two offsets. -/
theorem gap?_ofOffset {content : Bytes} {b : CommentBlock} {target : Nat}
    (hb : b.stop = Position.ofOffset content b.span.stop) (hle : b.span.stop ≤ target)
    (ht : target ≤ content.length) :
    b.gap? (Anchor.ofOffset content target) content = content.extract? ⟨b.span.stop, target⟩ := by
  have hstop := Position.offset?_ofOffset (Nat.le_trans hle ht)
  have htarget := Position.offset?_ofOffset ht
  simp only [gap?, Anchor.ofOffset, hb, hstop, htarget, Option.bind_eq_bind, Option.bind_some]

/-- Whether a block reaches a place is a matter of offsets. -/
theorem reaches_ofOffset {content : Bytes} {b : CommentBlock} {target maxGap : Nat} :
    reaches (Anchor.ofOffset content target) maxGap b = true ↔
      b.span.stop ≤ target ∧ target - b.span.stop ≤ maxGap := by
  rw [reaches, Bool.and_eq_true, decide_eq_true_iff, decide_eq_true_iff]
  exact Iff.rfl

end CommentBlock

/-- The line feeds between two offsets. -/
def newlinesBetween (content : Bytes) (start stop : Nat) : Nat :=
  Bytes.newlines ((content.drop start).take (stop - start))

/-- The text of the block that documents the place at an offset of a source. -/
def Source.documentationAt (f : Source) (maxGap offset : Nat) : String :=
  documentation (CommentBlock.blocks f.content f.comments) (Anchor.ofOffset f.content offset) f.content maxGap

variable {f : Source} {maxGap target : Nat}

/-- **The first block that reaches a place decides.** It documents the place unless more than one line feed lies
between. -/
theorem documentation_of_first {b : CommentBlock} (ht : target ≤ f.content.length)
    (hb : (CommentBlock.blocks f.content f.comments).find?
      (CommentBlock.reaches (Anchor.ofOffset f.content target) maxGap) = some b) :
    f.documentationAt maxGap target =
      if 1 < newlinesBetween f.content b.span.stop target then "" else b.text := by
  have hstop := CommentBlock.stop_of_mem_blocks (List.mem_of_find?_eq_some hb)
  have hle := (CommentBlock.reaches_ofOffset.1 (List.find?_some hb)).1
  rw [Source.documentationAt, documentation, hb]
  simp only [CommentBlock.gap?_ofOffset hstop hle ht, Bytes.extract?, hle, ht, and_self, if_true]
  rfl

/-- **A block directly before a place.** Take a block that ends at most `maxGap` bytes before a place, with at
most one line feed between. If no earlier block reaches the place, the block documents it. If an earlier block
does, the first one that does decides: it documents the place, or nothing does where more than one line feed
follows it. -/
theorem documentation_of_adjacent {before after : List CommentBlock} {b : CommentBlock} {gap : Bytes}
    (hblocks : CommentBlock.blocks f.content f.comments = before ++ b :: after)
    (hgap : f.content.extract? ⟨b.span.stop, target⟩ = some gap) (hnear : target - b.span.stop ≤ maxGap)
    (hline : gap.newlines ≤ 1) :
    ((∀ a ∈ before, ¬ (a.span.stop ≤ target ∧ target - a.span.stop ≤ maxGap)) →
        f.documentationAt maxGap target = b.text) ∧
      ∀ a ∈ before.find? (CommentBlock.reaches (Anchor.ofOffset f.content target) maxGap),
        f.documentationAt maxGap target =
          if 1 < newlinesBetween f.content a.span.stop target then "" else a.text := by
  obtain ⟨⟨hle, ht⟩, rfl⟩ : (b.span.stop ≤ target ∧ target ≤ f.content.length) ∧
      (f.content.drop b.span.stop).take (target - b.span.stop) = gap := by
    simpa [Bytes.extract?] using hgap
  constructor
  · intro alone
    have hfirst : (CommentBlock.blocks f.content f.comments).find?
        (CommentBlock.reaches (Anchor.ofOffset f.content target) maxGap) = some b := by
      rw [hblocks, List.find?_append, List.find?_eq_none.2 fun a ha hr =>
        alone a ha (CommentBlock.reaches_ofOffset.1 hr), Option.none_or,
        List.find?_cons_of_pos (CommentBlock.reaches_ofOffset.2 ⟨hle, hnear⟩)]
    rw [documentation_of_first ht hfirst]
    exact if_neg (Nat.not_lt.2 hline)
  · intro a ha
    refine documentation_of_first ht ?_
    rw [hblocks, List.find?_append, ha, Option.some_or]

/-! ### Bytes that are held -/

/-- What lies between a block and a place, in whatever bytes are held: if they have both positions, in this order, it
is what is between the two offsets, with as many line feeds as there are lines between. Otherwise there is nothing. -/
theorem CommentBlock.exists_gap?_iff {b : CommentBlock} {target : Anchor} {held : Bytes} {lines : Nat} :
    (∃ gap, b.gap? target held = some gap ∧ gap.newlines = lines) ↔
      b.stop.IsIn held ∧ target.position.IsIn held ∧ ¬ target.position.Before b.stop ∧
        target.position.line - b.stop.line = lines := by
  constructor
  · rintro ⟨gap, hgap, rfl⟩
    obtain ⟨start, hstart, hgap⟩ := Option.bind_eq_some_iff.1 hgap
    obtain ⟨stop, hstop, hgap⟩ := Option.bind_eq_some_iff.1 hgap
    obtain ⟨⟨hle, hin⟩, hgap⟩ := Option.ite_none_right_eq_some.1 hgap
    obtain rfl := Option.some.inj hgap
    obtain ⟨hstartin, hb⟩ := Position.offset?_eq_some_iff.1 hstart
    obtain ⟨hstopin, ht⟩ := Position.offset?_eq_some_iff.1 hstop
    rw [Position.newlines_between held hle, hb, ht]
    refine ⟨⟨start, hstartin, hb⟩, ⟨stop, hstopin, ht⟩, ?_, rfl⟩
    rw [← hb, ← ht]
    intro hbefore
    rcases Nat.lt_or_eq_of_le hle with hlt | heq
    · exact Position.Before.irrefl _ (hbefore.trans (Position.before_ofOffset hlt hin))
    · simp only at heq
      exact Position.Before.irrefl _ (heq ▸ hbefore)
  · rintro ⟨⟨start, hstartin, hb⟩, ⟨stop, hstopin, ht⟩, hbefore, rfl⟩
    have hle : start ≤ stop := Position.le_of_not_before hstartin (by rwa [hb, ht])
    refine ⟨(held.drop start).take (stop - start), ?_, ?_⟩
    · rw [gap?, Position.offset?_eq_some_iff.2 ⟨hstartin, hb⟩, Position.offset?_eq_some_iff.2 ⟨hstopin, ht⟩]
      exact if_pos ⟨hle, hstopin⟩
    · rw [Position.newlines_between held hle, hb, ht]

/-- **What documents a place, whatever bytes are held.** The first block decides that ends at or before the place and
at most `maxGap` bytes away from it. Its text documents the place if the bytes have the position of its end and the
position of the place, the one not behind the other and at most one line apart; otherwise nothing does. Where the bytes
are those that the blocks were made from and the place is one of their offsets, they have both positions, at the
offsets where the block ends and where the place is. -/
theorem documentation_eq (blocks : List CommentBlock) (target : Anchor) (held : Bytes) (maxGap : Nat) :
    (documentation blocks target held maxGap =
      match blocks.find? fun b => b.span.stop ≤ target.offset ∧ target.offset - b.span.stop ≤ maxGap with
      | none => ""
      | some b =>
        if b.stop.IsIn held ∧ target.position.IsIn held ∧ ¬ target.position.Before b.stop ∧
            target.position.line - b.stop.line ≤ 1 then
          b.text
        else "") ∧
      ∀ (spans : List Span) (offset : Nat), offset ≤ held.length → ∀ b ∈ CommentBlock.blocks held spans,
        b.span.stop ≤ offset →
          b.stop.offset? held = some b.span.stop ∧ (Position.ofOffset held offset).offset? held = some offset ∧
            b.gap? (Anchor.ofOffset held offset) held = held.extract? ⟨b.span.stop, offset⟩ ∧
            (b.gap? (Anchor.ofOffset held offset) held).isSome := by
  constructor
  · have found : blocks.find? (CommentBlock.reaches target maxGap) =
        blocks.find? fun b => b.span.stop ≤ target.offset ∧ target.offset - b.span.stop ≤ maxGap := by
      simp only [Bool.decide_and]
      rfl
    rw [documentation, found]
    cases blocks.find? fun b => b.span.stop ≤ target.offset ∧ target.offset - b.span.stop ≤ maxGap with
    | none => rfl
    | some b =>
        cases hgap : b.gap? target held with
        | none =>
            simp only [hgap]
            refine (if_neg ?_).symm
            rintro ⟨hb, ht, hbefore, -⟩
            obtain ⟨gap, hsome, -⟩ := CommentBlock.exists_gap?_iff.2 ⟨hb, ht, hbefore, rfl⟩
            cases hgap.symm.trans hsome
        | some gap =>
            obtain ⟨hb, ht, hbefore, hlines⟩ := CommentBlock.exists_gap?_iff.1 ⟨gap, hgap, rfl⟩
            simp only [hgap, hb, ht, hbefore, hlines, not_false_eq_true, true_and]
            by_cases hline : 1 < gap.newlines
            · rw [if_pos hline, if_neg (Nat.not_le.2 hline)]
            · rw [if_neg hline, if_pos (Nat.le_of_not_lt hline)]
  · intro spans offset hoffset b hb hle
    have hstop := CommentBlock.stop_of_mem_blocks hb
    have hgap := CommentBlock.gap?_ofOffset hstop hle hoffset
    refine ⟨?_, Position.offset?_ofOffset hoffset, hgap, ?_⟩
    · rw [hstop, Position.offset?_ofOffset (hle.trans hoffset)]
    · rw [hgap, Bytes.extract?, if_pos ⟨hle, hoffset⟩]
      rfl

/-! ### Two blocks with a blank line between them -/

/-- A file with two short comments, a blank line between them and code right below the second. -/
def twoComments : Bytes := Bytes.ofString "// a\n\n// b\npackage p\n"

/-- The first of the two comments. -/
def upperComment : CommentBlock := ⟨⟨0, 4⟩, ⟨1, 5⟩, "// a", false⟩

/-- The second of the two comments. -/
def lowerComment : CommentBlock := ⟨⟨6, 10⟩, ⟨3, 5⟩, "// b", false⟩

/-- The comments are two blocks, and the code is a package clause at offset 11. -/
theorem exists_parse?_twoComments :
    ∃ f, Source.parse? twoComments = some f ∧ f.content = twoComments ∧
      CommentBlock.blocks f.content f.comments = [upperComment, lowerComment] ∧
      ∃ n ∈ f.tree.children, n.kind = .packageClause ∧ n.span.start = 11 := by
  have read : (Source.parse? twoComments).map (fun f =>
      (f.content, CommentBlock.blocks f.content f.comments,
        f.tree.children.map fun n => (n.kind, n.span.start))) =
        some (twoComments, [upperComment, lowerComment], [(.comment, 0), (.comment, 6), (.packageClause, 11)]) := by
    decide +kernel
  obtain ⟨f, hf, hread⟩ := Option.map_eq_some_iff.1 read
  simp only [Prod.mk.injEq] at hread
  obtain ⟨hcontent, hblocks, hchildren⟩ := hread
  have hmem : (Kind.packageClause, 11) ∈ f.tree.children.map fun n => (n.kind, n.span.start) := by
    rw [hchildren]
    decide
  obtain ⟨n, hn, hclause⟩ := List.mem_map.1 hmem
  obtain ⟨hkind, hstart⟩ := Prod.mk.inj hclause
  exact ⟨f, hf, hcontent, hblocks, n, hn, hkind, hstart⟩

/-- Where only one byte may lie between, the second comment alone reaches the code. -/
theorem documentation_of_adjacent_twoComments :
    ∃ f, Source.parse? twoComments = some f ∧
      CommentBlock.blocks f.content f.comments = [upperComment] ++ lowerComment :: [] ∧
      f.content.extract? ⟨lowerComment.span.stop, 11⟩ = some [Bytes.newline] ∧
      11 - lowerComment.span.stop ≤ 1 ∧ Bytes.newlines [Bytes.newline] ≤ 1 ∧
      f.documentationAt 1 11 = "// b" := by
  obtain ⟨f, hf, hcontent, hblocks, -⟩ := exists_parse?_twoComments
  have hgap : f.content.extract? ⟨lowerComment.span.stop, 11⟩ = some [Bytes.newline] := by
    rw [hcontent]
    decide +kernel
  have split : CommentBlock.blocks f.content f.comments = [upperComment] ++ lowerComment :: [] := hblocks
  have alone := (documentation_of_adjacent split hgap (by decide : _ ≤ 1) (by decide)).1
  exact ⟨f, hf, hblocks, hgap, by decide, by decide, alone (by decide)⟩

/-- A comment with a blank line below it does not document the code, close as it is. -/
example : documentation [⟨⟨0, 4⟩, ⟨1, 5⟩, "// a", false⟩] (Anchor.ofOffset (Bytes.ofString "// a\n\npackage p\n") 6)
    (Bytes.ofString "// a\n\npackage p\n") 10 = "" := by
  decide +kernel

/-- The second comment documents the code in the bytes that the comments were read from, and does not in bytes that end
before the comment. -/
theorem documentation_eq_shorterBytes :
    documentation [upperComment, lowerComment] (Anchor.ofOffset twoComments 11) twoComments 1 = "// b" ∧
      documentation [upperComment, lowerComment] (Anchor.ofOffset twoComments 11) (Bytes.ofString "// a\n") 1 = "" := by
  rw [(documentation_eq _ _ _ _).1, (documentation_eq _ _ _ _).1]
  decide +kernel

/-- **A block directly before a place need not document it.** Where ten bytes may lie between, the first comment
reaches the code too, and it stands too far above. -/
theorem exists_adjacent_not_documentation :
    ∃ f, Source.parse? twoComments = some f ∧ ∃ n ∈ f.tree.children, n.kind = .packageClause ∧
      ∃ b ∈ CommentBlock.blocks f.content f.comments,
        b.span.stop ≤ n.span.start ∧ n.span.start - b.span.stop ≤ 10 ∧
        f.content.extract? ⟨b.span.stop, n.span.start⟩ = some [Bytes.newline] ∧
        f.documentationAt 10 n.span.start = "" ∧ b.text = "// b" := by
  obtain ⟨f, hf, hcontent, hblocks, n, hn, hkind, hstart⟩ := exists_parse?_twoComments
  refine ⟨f, hf, n, hn, hkind, lowerComment, by simp [hblocks], ?_⟩
  rw [Source.documentationAt, hblocks, hstart, hcontent]
  decide +kernel

end SuiteReport.Go
