import SuiteReport.Proofs.CommentRun
import SuiteReport.Proofs.LineEnds.Scan
import SuiteReport.Proofs.Text.Trim
/-!
# Comments with carriage returns

Comments make up the same blocks when carriage returns are put before the line feeds: the lines stay, only white space
is put in, and in the text of a comment carriage returns before line feeds do not count. The distance from a block to a
place behind it grows by the line feeds between them, though, as it is measured in bytes. So what documents a place
stays the same if the block that decides about the place is still near enough.

## Main definitions

* `CommentBlock.Returned`: whether a block is what another one becomes.
* `Source.StaysNear`: whether the block that decides about a place is near enough with carriage returns too.

## Main results

* `CommentBlock.blocks_returned`: the blocks of a source with carriage returns.
* `Source.documentationAt_returned`: what documents a place with carriage returns.
-/

namespace SuiteReport

/-! ### Texts -/

namespace Go.CommentBlock

theorem plainLineEnds_cons {c : Char} (hc : c ≠ '\r') (cs : List Char) :
    plainLineEnds (c :: cs) = c :: plainLineEnds cs := by
  rw [plainLineEnds]
  rintro - heq -
  exact hc heq

theorem plainLineEnds_eq_self {cs : List Char} (h : '\r' ∉ cs) : plainLineEnds cs = cs := by
  induction cs with
  | nil => rfl
  | cons c cs ih =>
      rw [List.mem_cons, not_or] at h
      rw [plainLineEnds_cons (Ne.symm h.1), ih h.2]

/-- Carriage returns before line feeds are removed again. -/
theorem plainLineEnds_returnedText {cs : List Char} (h : '\r' ∉ cs) : plainLineEnds (returnedText cs) = cs := by
  induction cs with
  | nil => rfl
  | cons c cs ih =>
      rw [List.mem_cons, not_or] at h
      by_cases hc : c = '\n'
      · subst hc
        rw [returnedText_feed, plainLineEnds, ih h.2]
      · rw [returnedText_cons hc, plainLineEnds_cons (Ne.symm h.1), ih h.2]

/-- No text ends in a carriage return that was put before a line feed. -/
theorem trimEnd_returnedText {cs : List Char} (h : '\r' ∉ cs) :
    trimEnd (· == '\r') (returnedText cs) = returnedText cs := by
  refine trimEnd_eq_self fun c hc => beq_eq_false_iff_ne.2 ?_
  rintro rfl
  rw [getLast?_returnedText] at hc
  exact h (List.mem_of_getLast? hc)

/-- **The text of a comment** is the same with carriage returns before its line feeds, and behind it too. -/
theorem commentText_returnedText {text : String} (h : '\r' ∉ text.toList) {behind : List Char}
    (hbehind : behind = [] ∨ behind = ['\r']) :
    commentText (String.ofList (returnedText text.toList ++ behind)) = commentText text := by
  have trimmed : trimEnd (· == '\r') (returnedText text.toList ++ behind) = returnedText text.toList := by
    rcases hbehind with rfl | rfl
    · rw [List.append_nil, trimEnd_returnedText h]
    · have last : trimEnd (· == '\r') (returnedText text.toList ++ ['\r']) =
          trimEnd (· == '\r') (returnedText text.toList) := by
        rw [trimEnd, List.reverse_append, List.reverse_singleton, List.singleton_append, List.dropWhile_cons_of_pos rfl,
          trimEnd]
      rw [last, trimEnd_returnedText h]
  have plain : trimEnd (· == '\r') text.toList = text.toList :=
    trimEnd_eq_self fun c hc => beq_eq_false_iff_ne.2 fun heq => h (heq ▸ List.mem_of_getLast? hc)
  rw [commentText, commentText, String.toList_ofList, trimmed, plainLineEnds_returnedText h, plain,
    plainLineEnds_eq_self h]

end Go.CommentBlock

/-! ### Bytes -/

namespace Bytes

variable {content : Bytes} {o p q : Nat}

theorem moved_succ {b : UInt8} (h : content[p]? = some b) :
    moved content (p + 1) = moved content p + 1 + if b = newline then 1 else 0 := by
  have one : (content.drop p).take 1 = [b] := by
    rw [List.take_one, List.head?_drop, h]
    rfl
  rw [moved_add, one, newlines, List.count_singleton]
  simp

/-- Where a byte comes to lie: at the end of what lies behind the bytes before it. -/
theorem getElem?_returned_of {b : UInt8} (h : content[p]? = some b) :
    (returned content)[moved content (p + 1) - 1]? = some b := by
  obtain ⟨hp, -⟩ := List.getElem?_eq_some_iff.1 h
  have rest := drop_returned (Nat.le_of_lt hp)
  have split : content.drop p = b :: content.drop (p + 1) := by
    rw [← List.getElem_cons_drop hp, (List.getElem?_eq_some_iff.1 h).2]
  rw [split] at rest
  rw [moved_succ h]
  by_cases hb : b = newline
  · subst hb
    rw [returned_feed] at rest
    have := congrArg (fun bytes : Bytes => bytes[1]?) rest
    simpa using this
  · rw [returned_cons hb] at rest
    have := congrArg (fun bytes : Bytes => bytes[0]?) rest
    simpa [hb] using this

/-- Every byte is a carriage return that was put in, or one that was there before. -/
theorem exists_of_getElem?_returned {b : UInt8} (h : (returned content)[q]? = some b) :
    b = 0x0D ∨ ∃ p, content[p]? = some b ∧ q + 1 = moved content (p + 1) := by
  induction content generalizing q with
  | nil => cases h
  | cons c content ih =>
      have behind (p : Nat) : moved (c :: content) (p + 1) = moved content p + 1 + if c = newline then 1 else 0 := by
        rw [moved, moved, List.take_succ_cons, newlines, newlines, List.count_cons]
        simp only [beq_iff_eq]
        omega
      by_cases hc : c = newline
      · subst hc
        rw [returned_feed] at h
        rcases q with _ | _ | q
        · exact .inl (Option.some.inj h).symm
        · exact .inr ⟨0, h, by simp [behind, moved_zero]⟩
        · refine (ih h).imp_right ?_
          rintro ⟨p, hp, hq⟩
          exact ⟨p + 1, hp, by rw [behind, if_pos rfl, ← hq]⟩
      · rw [returned_cons hc] at h
        rcases q with _ | q
        · exact .inr ⟨0, h, by simp [behind, moved_zero, hc]⟩
        · refine (ih h).imp_right ?_
          rintro ⟨p, hp, hq⟩
          exact ⟨p + 1, hp, by rw [behind, if_neg hc, ← hq]⟩

/-- A byte that is no line feed comes to lie where its offset does. -/
theorem getElem?_moved {b : UInt8} (h : content[p]? = some b) (hb : b ≠ newline) :
    (returned content)[moved content p]? = some b := by
  have landed := getElem?_returned_of h
  rwa [moved_succ h, if_neg hb, Nat.add_zero, Nat.add_sub_cancel] at landed

/-- Where a line feed was there is a carriage return now. -/
theorem getElem?_moved_newline (h : content[p]? = some newline) :
    (returned content)[moved content p]? = some 0x0D := by
  obtain ⟨hp, hat⟩ := List.getElem?_eq_some_iff.1 h
  have rest := drop_returned (Nat.le_of_lt hp)
  rw [← List.getElem_cons_drop hp, hat, returned_feed] at rest
  have := congrArg (fun bytes : Bytes => bytes[0]?) rest
  simpa using this

/-- Places stay in order, also if the first comes to lie behind the carriage return that was put in there. -/
theorem moved_add_le_iff {extra stop start : Nat} (hextra : extra = 0 ∨ extra = 1 ∧ content[stop]? = some newline)
    (hne : content[start]? ≠ some newline) :
    moved content stop + extra ≤ moved content start ↔ stop ≤ start := by
  rcases hextra with rfl | ⟨rfl, hfeed⟩
  · exact moved_le_moved_iff
  · have next := moved_succ hfeed
    rw [if_pos rfl] at next
    constructor
    · intro h
      exact moved_le_moved_iff.1 (Nat.le_of_succ_le h)
    · intro h
      have hlt : stop < start := Nat.lt_of_le_of_ne h (by rintro rfl; exact hne hfeed)
      have := moved_mono content (show stop + 1 ≤ start from hlt)
      omega

/-- Distances do not become smaller. -/
theorem sub_le_moved_sub {extra stop start : Nat} (hextra : extra = 0 ∨ extra = 1 ∧ content[stop]? = some newline)
    (hne : content[start]? ≠ some newline) (hle : stop ≤ start) :
    start - stop ≤ moved content start - (moved content stop + extra) := by
  have grows {s e : Nat} (h : s ≤ e) : e - s ≤ moved content e - moved content s := by
    obtain ⟨d, rfl⟩ := Nat.exists_eq_add_of_le h
    rw [moved_add]
    omega
  rcases hextra with rfl | ⟨rfl, hfeed⟩
  · exact grows hle
  · have hlt : stop < start := Nat.lt_of_le_of_ne hle (by rintro rfl; exact hne hfeed)
    have next := moved_succ hfeed
    rw [if_pos rfl] at next
    have := grows (show stop + 1 ≤ start from hlt)
    have := moved_mono content (show stop + 1 ≤ start from hlt)
    omega

/-- A span that goes one byte further has one byte more. -/
theorem extract?_succ {s e : Nat} {b : UInt8} (hle : s ≤ e) (h : content[e]? = some b) :
    content.extract? ⟨s, e + 1⟩ = (content.extract? ⟨s, e⟩).map (· ++ [b]) := by
  obtain ⟨he, hat⟩ := List.getElem?_eq_some_iff.1 h
  have shorter : content.extract? ⟨s, e⟩ = some ((content.drop s).take (e - s)) := if_pos ⟨hle, Nat.le_of_lt he⟩
  have longer : content.extract? ⟨s, e + 1⟩ = some ((content.drop s).take (e + 1 - s)) :=
    if_pos ⟨Nat.le_succ_of_le hle, he⟩
  have next : (content.drop s)[e - s]? = some b := by rw [List.getElem?_drop, Nat.add_sub_cancel' hle, h]
  rw [shorter, longer, Option.map_some, Nat.succ_sub hle, List.take_add_one, next]
  rfl

/-- A text holds a carriage return only if there is one among the bytes. -/
theorem return_notMem_text (hplain : 0x0D ∉ content) (s : Span) : '\r' ∉ (content.text s).toList := by
  intro hmem
  rw [text] at hmem
  cases hbytes : content.extract? s with
  | none =>
      rw [hbytes] at hmem
      simp at hmem
  | some bytes =>
      cases hdecode : decode? bytes with
      | none =>
          rw [hbytes, Option.bind_some, hdecode] at hmem
          simp at hmem
      | some t =>
          rw [hbytes, Option.bind_some, hdecode, Option.getD_some] at hmem
          have inside : (0x0D : UInt8) ∈ bytes := by
            rw [decode?_eq_some_iff.1 hdecode, ofString]
            exact List.mem_flatMap.2 ⟨'\r', hmem, by decide⟩
          obtain ⟨-, hbytes⟩ := Option.ite_none_right_eq_some.1 hbytes
          rw [← Option.some.inj hbytes] at inside
          exact hplain (List.mem_of_mem_drop (List.mem_of_mem_take inside))

/-- A carriage return that was put in does not change the line. -/
theorem line_moved {extra : Nat} (ho : o ≤ content.length)
    (hextra : extra = 0 ∨ extra = 1 ∧ content[o]? = some newline) :
    (Position.ofOffset (returned content) (moved content o + extra)).line = (Position.ofOffset content o).line := by
  rcases hextra with rfl | ⟨rfl, hfeed⟩
  · exact line_returned ho
  · have step := Position.advance_succ ⟨1, 1⟩ (getElem?_moved_newline hfeed)
    have same := line_returned ho
    rw [Position.ofOffset] at same ⊢
    rw [step, ← same]
    rfl

end Bytes

namespace Go

open Bytes (moved)

variable {content : Bytes} {lexemes : Lexemes} {c : Span} {o stop start extra : Nat}

/-! ### Blocks -/

namespace CommentBlock

/-- What stands before a place on its line is as it was. -/
theorem followsCode_returned (ho : o ≤ content.length) :
    followsCode (Bytes.returned content) (moved content o) = followsCode content o := by
  have inside : moved content o ≤ (Bytes.returned content).length := by
    rw [← Bytes.moved_length]
    exact Bytes.moved_mono content ho
  rw [Bool.eq_iff_iff, followsCode_iff ho, followsCode_iff inside]
  constructor
  · rintro ⟨q, b, ⟨hlt, hline⟩, hat, hblank⟩
    rcases Bytes.exists_of_getElem?_returned hat with rfl | ⟨p, hp, hq⟩
    · cases hblank
    · have hb : b ≠ Bytes.newline := by
        rintro rfl
        cases hblank
      rw [Bytes.moved_succ hp, if_neg hb, Nat.add_zero, Nat.add_right_cancel_iff] at hq
      subst hq
      have before : p < o := by
        by_contra hle
        have := Bytes.moved_mono content (Nat.le_of_not_lt hle)
        omega
      rw [Bytes.line_returned ho, Bytes.line_returned ((Nat.le_of_lt before).trans ho)] at hline
      exact ⟨p, b, ⟨before, hline⟩, hp, hblank⟩
  · rintro ⟨p, b, ⟨hlt, hline⟩, hat, hblank⟩
    have hb : b ≠ Bytes.newline := by
      rintro rfl
      cases hblank
    refine ⟨moved content p, b, ⟨Bytes.moved_strictMono content hlt, ?_⟩, Bytes.getElem?_moved hat hb, hblank⟩
    rw [Bytes.line_returned ho, Bytes.line_returned ((Nat.le_of_lt hlt).trans ho), hline]

/-- Places are adjacent as they were, also with a carriage return behind the first one taken off. -/
theorem adjacent_returned (hstart : start ≤ content.length)
    (hextra : extra = 0 ∨ extra = 1 ∧ content[stop]? = some Bytes.newline)
    (hne : content[start]? ≠ some Bytes.newline) :
    adjacent (Bytes.returned content) (moved content stop + extra) (moved content start) =
      adjacent content stop start := by
  have inside : moved content start ≤ (Bytes.returned content).length := by
    rw [← Bytes.moved_length]
    exact Bytes.moved_mono content hstart
  rw [Bool.eq_iff_iff, adjacent_iff hstart, adjacent_iff inside, Bytes.moved_add_le_iff hextra hne]
  refine and_congr_right fun hle => ?_
  rw [Bytes.line_returned hstart, Bytes.line_moved (hle.trans hstart) hextra]
  refine and_congr_left fun _ => ?_
  constructor
  · intro h p hp hlt
    have hat : content[p]? = some content[p] := List.getElem?_eq_getElem (by omega)
    refine ⟨content[p], hat, ?_⟩
    have behind : moved content stop + 1 + extra ≤ moved content (stop + 1) := by
      rcases hextra with rfl | ⟨rfl, hfeed⟩
      · exact Bytes.moved_strictMono content (Nat.lt_succ_self stop)
      · rw [Bytes.moved_succ hfeed, if_pos rfl]
    have first := Bytes.moved_mono content (Nat.add_le_add_right hp 1)
    have last := Bytes.moved_mono content (show p + 1 ≤ start from hlt)
    obtain ⟨b, hb, hblank⟩ := h (moved content (p + 1) - 1) (by omega) (by omega)
    rw [Bytes.getElem?_returned_of hat] at hb
    rwa [← Option.some.inj hb] at hblank
  · intro h q hq hlt
    have hat : (Bytes.returned content)[q]? = some (Bytes.returned content)[q] := List.getElem?_eq_getElem (by omega)
    refine ⟨(Bytes.returned content)[q], hat, ?_⟩
    rcases Bytes.exists_of_getElem?_returned hat with hreturn | ⟨p, hp, hq'⟩
    · rw [hreturn]
      rfl
    · have hstop : stop ≤ p := by
        by_contra hlt
        have := Bytes.moved_mono content (show p + 1 ≤ stop from Nat.lt_of_not_le hlt)
        omega
      have hstart : p < start := by
        by_contra hle
        have := Bytes.moved_mono content (Nat.le_of_not_lt hle)
        have := Bytes.moved_strictMono content (Nat.lt_add_one p)
        omega
      obtain ⟨b, hb, hblank⟩ := h p hstop hstart
      rw [hp] at hb
      rwa [Option.some.inj hb]

/-- A comment of a source begins with a slash and lies inside it. -/
theorem slash_of_mem_comments (h : Lexemes.ofBytes? content = some lexemes) (hc : c ∈ lexemes.comments) :
    content[c.start]? = some 0x2F ∧ c.start ≤ c.stop ∧ c.stop ≤ content.length := by
  have has : lexemes.Has .comment c := hc
  refine ⟨?_, Lexemes.stop_le_length h has⟩
  obtain ⟨offset, hscans⟩ := Lexemes.exists_scans h
  obtain ⟨-, g, rest, count, hgs, hnext, -⟩ := hscans.exists_next? rfl has
  rcases Lexeme.next?_forms hnext with ⟨-, h, -⟩ | ⟨-, h, -⟩ | ⟨-, hcomment⟩ | ⟨_, -, h, -⟩
  · cases h
  · cases h
  · obtain ⟨s, later, heq, -, hslash, -⟩ := Lexeme.slash_of_comment hcomment
    obtain ⟨rfl, rfl⟩ := List.cons.inj heq
    have first := Bytes.head?_glyphs (content.drop c.start) (by decide : (0x2F : UInt8).toNat < 0x80)
      (rfl : '/'.toNat = _)
    rw [hgs, List.head?_drop] at first
    exact first.1 hslash
  · cases h

/-- The text of a comment is what it was, where it comes to lie. -/
theorem commentText_text_returned (hplain : 0x0D ∉ content) (hle : c.start ≤ c.stop)
    (hlength : c.stop ≤ content.length) :
    commentText ((Bytes.returned content).text (returnedComment content c)) = commentText (content.text c) := by
  have noReturn := Bytes.return_notMem_text hplain c
  have bytes : content.extract? c = some ((content.drop c.start).take (c.stop - c.start)) := if_pos ⟨hle, hlength⟩
  by_cases hreturn : content[c.start + 1]? = some 0x2F ∧ content[c.stop]? = some Bytes.newline
  · have span : returnedComment content c = ⟨moved content c.start, moved content c.stop + 1⟩ := by
      rw [returnedComment, if_pos hreturn]
    have behind := Bytes.extract?_succ (Bytes.moved_mono content hle) (Bytes.getElem?_moved_newline hreturn.2)
    rw [Bytes.extract?_returned content c, bytes, Option.map_some, Option.map_some] at behind
    have text : content.text c =
        ((Bytes.decodeChars? ((content.drop c.start).take (c.stop - c.start))).map String.ofList).getD "" := by
      rw [Bytes.text, bytes, Option.bind_some, Bytes.decode?]
    rw [text] at noReturn ⊢
    have last : [0x0D] = String.utf8EncodeChar '\r' ++ [] := by decide
    rw [span, Bytes.text, behind, Option.bind_some, Bytes.decode?, last, ← List.append_assoc,
      Bytes.decodeChars?_append_encodeChar_append, Bytes.decodeChars?_returned]
    cases hcs : Bytes.decodeChars? ((content.drop c.start).take (c.stop - c.start)) with
    | none => rfl
    | some cs =>
        rw [hcs, Option.map_some, Option.getD_some] at noReturn
        have same := commentText_returnedText noReturn (.inr rfl)
        rwa [String.toList_ofList] at same
  · have span : returnedComment content c = ⟨moved content c.start, moved content c.stop⟩ := by
      rw [returnedComment, if_neg hreturn]
      rfl
    have text := commentText_returnedText noReturn (.inl rfl)
    rwa [List.append_nil, ← Bytes.text_returned, ← span] at text

/-- `Returned content comments b b'`: the second block is what the first, which ends with one of the comments, becomes
with carriage returns. -/
structure Returned (content : Bytes) (comments : List Span) (b b' : CommentBlock) : Prop where
  /-- The text is the same. -/
  text : b'.text = b.text
  /-- The block trails code if it did. -/
  trailing : b'.trailing = b.trailing
  /-- The block ends where its last comment comes to end. -/
  stop : ∃ c ∈ comments, c.stop = b.span.stop ∧ (returnedComment content c).stop = b'.span.stop

theorem returned_ofComment (h : Lexemes.ofBytes? content = some lexemes) (hplain : 0x0D ∉ content)
    (hc : c ∈ lexemes.comments) :
    Returned content lexemes.comments (ofComment content c)
      (ofComment (Bytes.returned content) (returnedComment content c)) where
  text := by
    obtain ⟨-, hle, hlength⟩ := slash_of_mem_comments h hc
    exact commentText_text_returned hplain hle hlength
  trailing := by
    obtain ⟨-, hle, hlength⟩ := slash_of_mem_comments h hc
    exact followsCode_returned (hle.trans hlength)
  stop := ⟨c, hc, rfl, rfl⟩

/-- A comment goes on a block if it did. -/
theorem Returned.joins_eq {b b' : CommentBlock} (h : Lexemes.ofBytes? content = some lexemes) (hplain : 0x0D ∉ content)
    (hb : Returned content lexemes.comments b b') (hc : c ∈ lexemes.comments) :
    joins (Bytes.returned content) b' (ofComment (Bytes.returned content) (returnedComment content c)) =
      joins content b (ofComment content c) := by
  obtain ⟨last, -, hstop, hstop'⟩ := hb.stop
  obtain ⟨hslash, hle, hlength⟩ := slash_of_mem_comments h hc
  have apart : adjacent (Bytes.returned content) b'.span.stop (moved content c.start) =
      adjacent content b.span.stop c.start := by
    rw [← hstop, ← hstop']
    refine adjacent_returned (hle.trans hlength) ?_ (by rw [hslash]; decide)
    split
    · rename_i hreturn
      exact .inr ⟨rfl, hreturn.2⟩
    · exact .inl rfl
  rw [joins, joins, hb.trailing, (returned_ofComment h hplain hc).trailing]
  exact congrArg (_ && ·) apart

theorem Returned.append {b b' : CommentBlock} (h : Lexemes.ofBytes? content = some lexemes) (hplain : 0x0D ∉ content)
    (hb : Returned content lexemes.comments b b') (hc : c ∈ lexemes.comments) :
    Returned content lexemes.comments (b.append (ofComment content c))
      (b'.append (ofComment (Bytes.returned content) (returnedComment content c))) where
  text := by rw [CommentBlock.append, CommentBlock.append, hb.text, (returned_ofComment h hplain hc).text]
  trailing := hb.trailing
  stop := (returned_ofComment h hplain hc).stop

/-- **The blocks of a source with carriage returns** are those of the source. -/
theorem blocks_returned (h : Lexemes.ofBytes? content = some lexemes) (hplain : 0x0D ∉ content) :
    List.Forall₂ (Returned content lexemes.comments) (blocks content lexemes.comments)
      (blocks (Bytes.returned content) (lexemes.comments.map (returnedComment content))) := by
  have behind (spans : List Span) (b b' : CommentBlock) (hspans : spans ⊆ lexemes.comments)
      (hb : Returned content lexemes.comments b b') :
      List.Forall₂ (Returned content lexemes.comments) (blocksFrom content b spans)
        (blocksFrom (Bytes.returned content) b' (spans.map (returnedComment content))) := by
    induction spans generalizing b b' with
    | nil => exact .cons hb .nil
    | cons c later ih =>
        rw [List.cons_subset] at hspans
        rw [List.map_cons, blocksFrom, blocksFrom, hb.joins_eq h hplain hspans.1]
        split
        · exact ih _ _ hspans.2 (hb.append h hplain hspans.1)
        · exact .cons hb (ih _ _ hspans.2 (returned_ofComment h hplain hspans.1))
  cases hcomments : lexemes.comments with
  | nil => exact .nil
  | cons c later =>
      rw [hcomments] at behind
      have hc : c ∈ lexemes.comments := hcomments ▸ List.mem_cons_self
      have first := returned_ofComment h hplain hc
      rw [hcomments] at first
      exact behind later _ _ (List.subset_cons_self _ _) first

/-- How far a block moves beyond its offset: by the carriage return behind it, if a line feed was there. -/
theorem Returned.exists_stop {comments : List Span} {b b' : CommentBlock} (hb : Returned content comments b b') :
    ∃ extra, b'.span.stop = moved content b.span.stop + extra ∧
      (extra = 0 ∨ extra = 1 ∧ content[b.span.stop]? = some Bytes.newline) := by
  obtain ⟨c, -, hstop, hstop'⟩ := hb.stop
  rw [← hstop', ← hstop]
  refine ⟨_, rfl, ?_⟩
  split
  · rename_i hreturn
    exact .inr ⟨rfl, hreturn.2⟩
  · exact .inl rfl

/-- A block that reaches a place with carriage returns reaches it without them. -/
theorem Returned.reaches_of_returned {comments : List Span} {b b' : CommentBlock} {maxGap : Nat}
    (hb : Returned content comments b b') (hne : content[o]? ≠ some Bytes.newline)
    (h : reaches (Anchor.ofOffset (Bytes.returned content) (moved content o)) maxGap b' = true) :
    reaches (Anchor.ofOffset content o) maxGap b = true := by
  obtain ⟨extra, hstop, hextra⟩ := hb.exists_stop
  rw [reaches_ofOffset, hstop, Bytes.moved_add_le_iff hextra hne] at h
  exact reaches_ofOffset.2 ⟨h.1, (Bytes.sub_le_moved_sub hextra hne h.1).trans h.2⟩

end CommentBlock

/-! ### What documents a place -/

/-- The first of some elements that is found is related to the first that is found of related elements, if what is found
there would be found here and the first that is found here is also found there. -/
theorem find?_of_forall₂ {α β : Type} {R : α → β → Prop} {p : α → Bool} {q : β → Bool} {as : List α} {bs : List β}
    (h : List.Forall₂ R as bs) (hpq : ∀ a b, R a b → q b = true → p a = true)
    (hfirst : ∀ a ∈ as.find? p, ∀ b, R a b → q b = true) :
    Option.Rel R (as.find? p) (bs.find? q) := by
  induction h with
  | nil => exact .none
  | @cons a b as bs hab _ ih =>
      rw [List.find?_cons] at hfirst ⊢
      rw [List.find?_cons]
      cases hp : p a with
      | true =>
          rw [hp] at hfirst
          rw [hfirst a rfl b hab]
          exact .some hab
      | false =>
          rw [hp] at hfirst
          have hq : q b = false := by
            rw [← Bool.not_eq_true]
            intro hq
            rw [hpq a b hab hq] at hp
            cases hp
          rw [hq]
          exact ih hfirst

/-- The line feeds between two places are told by their lines. -/
theorem newlinesBetween_eq (hle : stop ≤ start) :
    newlinesBetween content stop start =
      (Position.ofOffset content start).line - (Position.ofOffset content stop).line := by
  rw [newlinesBetween, Position.line_ofOffset, Position.line_ofOffset, Position.newlines_take hle]
  omega

/-- Whether the block that decides about a place is near enough with carriage returns before the line feeds too: the
distance between where its last comment and where the place come to lie is no more than allowed. -/
def Source.StaysNear (f : Source) (maxGap o : Nat) : Prop :=
  ∀ b ∈ (CommentBlock.blocks f.content f.comments).find?
      (CommentBlock.reaches (Anchor.ofOffset f.content o) maxGap),
    ∀ c ∈ f.comments, c.stop = b.span.stop →
      moved f.content o - (returnedComment f.content c).stop ≤ maxGap

/-- **What documents a place** is the same with carriage returns, if the block that decides about it stays near. -/
theorem Source.documentationAt_returned {f f' : Source} {maxGap : Nat} (h : Lexemes.ofBytes? f.content = some lexemes)
    (hcomments : f.comments = lexemes.comments) (hcontent : f'.content = Bytes.returned f.content)
    (hcomments' : f'.comments = f.comments.map (returnedComment f.content)) (hplain : 0x0D ∉ f.content)
    (ho : o ≤ f.content.length) (hne : f.content[o]? ≠ some Bytes.newline) (hnear : f.StaysNear maxGap o) :
    f'.documentationAt maxGap (moved f.content o) = f.documentationAt maxGap o := by
  have blocks := CommentBlock.blocks_returned h hplain
  rw [← hcomments, ← hcomments', ← hcontent] at blocks
  have inside : moved f.content o ≤ f'.content.length := by
    rw [hcontent, ← Bytes.moved_length]
    exact Bytes.moved_mono _ ho
  have first : ∀ b ∈ (CommentBlock.blocks f.content f.comments).find?
      (CommentBlock.reaches (Anchor.ofOffset f.content o) maxGap), ∀ b',
      CommentBlock.Returned f.content f.comments b b' →
        CommentBlock.reaches (Anchor.ofOffset f'.content (moved f.content o)) maxGap b' = true := by
    intro b hb b' hreturned
    obtain ⟨hle, -⟩ := CommentBlock.reaches_ofOffset.1 (List.find?_some hb)
    obtain ⟨extra, hstop, hextra⟩ := hreturned.exists_stop
    obtain ⟨c, hc, hlast, hlast'⟩ := hreturned.stop
    refine CommentBlock.reaches_ofOffset.2 ⟨?_, ?_⟩
    · rwa [hstop, Bytes.moved_add_le_iff hextra hne]
    · rw [← hlast']
      exact hnear b hb c hc hlast
  have found := find?_of_forall₂ blocks
    (fun b b' hb hreach => hb.reaches_of_returned hne (hcontent ▸ hreach)) first
  cases hb : (CommentBlock.blocks f.content f.comments).find?
      (CommentBlock.reaches (Anchor.ofOffset f.content o) maxGap) with
  | none =>
      rw [hb] at found
      cases hb' : (CommentBlock.blocks f'.content f'.comments).find?
          (CommentBlock.reaches (Anchor.ofOffset f'.content (moved f.content o)) maxGap) with
      | none => rw [Source.documentationAt, Source.documentationAt, documentation, documentation, hb, hb']
      | some b' =>
          rw [hb'] at found
          cases found
  | some b =>
      rw [hb] at found
      cases hb' : (CommentBlock.blocks f'.content f'.comments).find?
          (CommentBlock.reaches (Anchor.ofOffset f'.content (moved f.content o)) maxGap) with
      | none =>
          rw [hb'] at found
          cases found
      | some b' =>
          rw [hb'] at found
          obtain ⟨hreturned⟩ := found
          obtain ⟨extra, hstop, hextra⟩ := hreturned.exists_stop
          have hle := (CommentBlock.reaches_ofOffset.1 (List.find?_some hb)).1
          have hle' := (CommentBlock.reaches_ofOffset.1 (List.find?_some hb')).1
          have lines : newlinesBetween f'.content b'.span.stop (moved f.content o) =
              newlinesBetween f.content b.span.stop o := by
            rw [newlinesBetween_eq hle', newlinesBetween_eq hle, hcontent, hstop, Bytes.line_returned ho,
              Bytes.line_moved (hle.trans ho) hextra]
          rw [documentation_of_first inside hb', documentation_of_first ho hb, lines, hreturned.text]

end Go

end SuiteReport
