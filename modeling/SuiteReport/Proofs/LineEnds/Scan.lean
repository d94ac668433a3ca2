import SuiteReport.Proofs.LineEnds.Lexeme
import SuiteReport.Proofs.Source.Place
/-!
# Scanning with carriage returns

A source with carriage returns before its line feeds has the same tokens and comments, each where it comes to lie. The
carriage return before a line end is white space, so line ends begin behind it; one behind a comment that goes on to
the end of its line belongs to the comment. There is one exception: a source with a text between quotes on several
lines has tokens as it is and none with carriage returns.

## Main definitions

* `Token.returned`, `returnedComment`, `Lexemes.returned`: where tokens and comments come to lie.
* `Lexemes.Unbroken`: whether all texts between quotes are on one line.

## Main results

* `Lexemes.Scans.returned_iff`: what glyphs with carriage returns are read as.
* `Lexemes.ofBytes?_returned`: the lexemes of a source with carriage returns.
-/

namespace SuiteReport

namespace Bytes

variable {content : Bytes}

/-- A character below `0x80` comes first exactly if its byte does. -/
theorem head?_glyphs (content : Bytes) {c : Char} {b : UInt8} (hb : b.toNat < 0x80) (hc : c.toNat = b.toNat) :
    content.glyphs.head?.any (·.is (· == c)) = true ↔ content.head? = some b := by
  cases content with
  | nil => simp [glyphs, glyphsAfter]
  | cons b' rest =>
      cases hgs : glyphs (b' :: rest) with
      | nil =>
          rw [glyphs, glyphsAfter] at hgs
          split at hgs <;> cases hgs
      | cons g gs =>
          obtain ⟨bytes, later, hbytes, -, -, ⟨b'', c', rfl, hg, hsame, -⟩ | ⟨hne, hhigh, hchar⟩⟩ :=
            exists_bytes_of_glyphs hgs
          · obtain ⟨rfl, rfl⟩ := List.cons.inj hbytes
            rw [List.head?_cons, List.head?_cons, Option.any_some, Glyph.is, hg, Option.any_some, beq_iff_eq,
              Option.some.injEq, ← Char.toNat_inj, ← UInt8.toNat_inj, hsame, hc]
          · obtain ⟨first, tail, rfl⟩ := List.exists_cons_of_ne_nil hne
            obtain ⟨rfl, rfl⟩ := List.cons.inj hbytes
            have low := hhigh _ List.mem_cons_self
            rw [List.head?_cons, List.head?_cons, Option.any_some]
            constructor
            · intro h
              obtain ⟨c', hc', heq⟩ := (Option.any_eq_true _ _).1 h
              have := hchar c' hc'
              rw [beq_iff_eq.1 heq] at this
              omega
            · intro h
              rw [Option.some.inj h] at low
              omega

end Bytes

namespace Go

open Bytes (moved)

variable {content : Bytes} {lexemes lexemes' later : Lexemes} {lexeme : Lexeme} {g : Glyph} {gs : List Glyph}
  {offset count : Nat}

/-! ### Where tokens and comments come to lie -/

/-- Where a token comes to lie. A line end begins behind the carriage return before it. -/
def Token.returned (content : Bytes) (t : Token) : Token :=
  ⟨t.cls, ⟨moved content t.span.start + if t.isLineEnd then 1 else 0, moved content t.span.stop⟩⟩

/-- Where a comment comes to lie. One between two slashes and the end of its line takes up the carriage return there. -/
def returnedComment (content : Bytes) (c : Span) : Span :=
  ⟨moved content c.start, moved content c.stop +
    if content[c.start + 1]? = some 0x2F ∧ content[c.stop]? = some Bytes.newline then 1 else 0⟩

namespace Lexemes

/-- Where the lexemes come to lie. -/
def returned (content : Bytes) (lexemes : Lexemes) : Lexemes :=
  ⟨lexemes.tokens.map (Token.returned content), lexemes.comments.map (returnedComment content)⟩

/-- Whether every text between quotes, other than back quotes, is on one line. -/
def Unbroken (content : Bytes) (lexemes : Lexemes) : Prop :=
  ∀ t ∈ lexemes.tokens, t.cls = .literal .interpretedString ∨ t.cls = .literal .rune →
    (Position.ofOffset content t.span.start).line = (Position.ofOffset content t.span.stop).line

/-! ### Lexeme by lexeme -/

/-- What glyphs are read as, by the first lexeme. -/
theorem scans_cons_iff (h : Lexeme.next? (g :: gs) = some (lexeme, count)) :
    Scans offset (g :: gs) lexemes ↔
      ∃ later, Scans (offset + Bytes.widthOf ((g :: gs).take count)) ((g :: gs).drop count) later ∧
        lexemes = later.cons ⟨offset, offset + Bytes.widthOf ((g :: gs).take count)⟩ lexeme := by
  constructor
  · intro hscans
    cases hscans with
    | cons hnext hlater =>
        obtain ⟨rfl, rfl⟩ := Prod.mk.inj (Option.some.inj (hnext.symm.trans h))
        exact ⟨_, hlater, rfl⟩
  · rintro ⟨later, hlater, rfl⟩
    exact .cons h hlater

/-- A carriage return is passed over. -/
theorem scans_return_iff (gs : List Glyph) :
    Scans offset (⟨some '\r', 1⟩ :: gs) lexemes ↔ Scans (offset + 1) gs lexemes := by
  rw [scans_cons_iff (rfl : Lexeme.next? (⟨some '\r', 1⟩ :: gs) = some (.blank, 1))]
  exact exists_eq_right'

/-- Where nothing begins, nothing is read. -/
theorem not_scans (h : Lexeme.next? (g :: gs) = none) : ¬ Scans offset (g :: gs) lexemes := by
  intro hscans
  cases hscans with
  | cons hnext _ => cases hnext.symm.trans h

/-- The texts between quotes are on one line if the first one is and the later ones are. -/
theorem unbroken_cons_iff {span : Span} :
    Unbroken content (later.cons span lexeme) ↔
      (lexeme.isQuoted = true →
        (Position.ofOffset content span.start).line = (Position.ofOffset content span.stop).line) ∧
        Unbroken content later := by
  cases lexeme with
  | blank | comment => simp [Unbroken, cons, Lexeme.isQuoted]
  | token cls =>
      have quoted : (Lexeme.token cls).isQuoted = true ↔ cls = .literal .interpretedString ∨ cls = .literal .rune := by
        cases cls with
        | literal c => cases c <;> simp [Lexeme.isQuoted]
        | _ => simp [Lexeme.isQuoted]
      rw [quoted]
      exact List.forall_mem_cons

/-- Glyphs are on one line if there is no line feed among them. -/
theorem line_eq_iff (hgs : Bytes.glyphs (content.drop offset) = gs) (n : Nat) :
    (Position.ofOffset content offset).line =
        (Position.ofOffset content (offset + Bytes.widthOf (gs.take n))).line ↔
      (gs.take n).any Glyph.isFeed = false := by
  have feeds : Bytes.newlines ((content.drop offset).take (Bytes.widthOf (gs.take n))) =
      (gs.take n).countP Glyph.isFeed := Bytes.newlines_take_glyphs hgs n
  rw [Position.line_ofOffset, Position.line_ofOffset, Position.newlines_take (Nat.le_add_right offset _),
    Nat.add_sub_cancel_left, feeds, List.any_eq_false]
  constructor
  · intro h g hg
    exact List.countP_eq_zero.1 (by omega : (gs.take n).countP Glyph.isFeed = 0) g hg
  · intro h
    rw [List.countP_eq_zero.2 h]
    rfl

/-- Whether a comment takes up a carriage return behind it is told by the bytes around it. -/
theorem returnBehind_eq (hgs : Bytes.glyphs (content.drop offset) = g :: gs)
    (h : Extent.comment (g :: gs) = some count) :
    Extent.returnBehind (g :: gs) count =
      if content[offset + 1]? = some 0x2F ∧
          content[offset + Bytes.widthOf ((g :: gs).take count)]? = some Bytes.newline then 1 else 0 := by
  obtain ⟨s, rest, heq, -, hslash, -⟩ := Lexeme.slash_of_comment h
  obtain ⟨rfl, rfl⟩ := List.cons.inj heq
  have second : gs[0]?.any (·.is (· == '/')) = true ↔ content[offset + 1]? = some 0x2F := by
    obtain ⟨c, hc, heq⟩ := (Option.any_eq_true _ _).1 hslash
    obtain ⟨hdecode, hwidth⟩ := (Bytes.of_glyphs_eq_cons hgs).1 c hc
    have later := (Bytes.of_glyphs_eq_cons hgs).2
    obtain rfl := beq_iff_eq.1 heq
    have one : '/'.utf8Size = 1 := rfl
    rw [hwidth, one, List.drop_drop] at later
    have first := Bytes.head?_glyphs (content.drop (offset + 1)) (by decide : (0x2F : UInt8).toNat < 0x80)
      (rfl : '/'.toNat = _)
    rw [later, List.head?_drop] at first
    rw [← List.head?_eq_getElem?, first]
  have behind : ((g :: gs).drop count).head?.any Glyph.isFeed = true ↔
      content[offset + Bytes.widthOf ((g :: gs).take count)]? = some Bytes.newline := by
    have later := Bytes.glyphs_drop hgs count
    rw [List.drop_drop] at later
    rw [← later, ← List.head?_drop]
    exact Bytes.head?_glyphs _ (by decide) rfl
  rw [Extent.returnBehind, List.getElem?_cons_succ]
  simp only [Bool.and_eq_true, second, behind]

/-- Where a line feed begins, a line end is read. -/
theorem next?_feed (hg : g.isFeed = true) (gs : List Glyph) :
    Lexeme.next? (g :: gs) = some (.token .lineEnd, 1) := by
  obtain ⟨c, hc, heq⟩ := (Option.any_eq_true _ _).1 hg
  obtain rfl := beq_iff_eq.1 heq
  have blank : g.is Lexeme.isBlank = false := by
    rw [Glyph.is, hc]
    rfl
  rw [Glyph.isFeed] at hg
  rw [Lexeme.next?_cons, blank, if_neg Bool.false_ne_true, if_pos hg]

/-- Behind some glyphs with carriage returns, and behind the one that a comment takes up, the others are read. -/
theorem scans_behind (lexemes : Lexemes) {n extra : Nat} (hgs : Bytes.glyphs (content.drop offset) = gs)
    (hextra : extra = 0 ∨ extra = 1 ∧ (gs.drop n).head?.any Glyph.isFeed = true) :
    Bytes.widthOf ((Glyph.returned gs).take (Extent.grown gs n + extra)) =
        Bytes.widthOf (Glyph.returned (gs.take n)) + extra ∧
      (Scans (moved content offset + (Bytes.widthOf (Glyph.returned (gs.take n)) + extra))
          ((Glyph.returned gs).drop (Extent.grown gs n + extra)) lexemes ↔
        Scans (moved content (offset + Bytes.widthOf (gs.take n))) (Glyph.returned (gs.drop n)) lexemes) := by
  have moves := Bytes.moved_add_widthOf hgs n
  rcases hextra with rfl | ⟨rfl, hfeed⟩
  · rw [Nat.add_zero, Nat.add_zero, Extent.take_grown, Extent.drop_grown, moves]
    exact ⟨rfl, Iff.rfl⟩
  · obtain ⟨f, hf, hfeed⟩ := (Option.any_eq_true _ _).1 hfeed
    obtain ⟨rest, hrest⟩ := List.head?_eq_some_iff.1 hf
    have later := Extent.drop_grown gs n
    rw [hrest, Glyph.returned_feed hfeed] at later
    rw [List.take_add, Extent.take_grown, later, ← List.drop_drop, later, hrest, Glyph.returned_feed hfeed,
      scans_return_iff, moves, Nat.add_assoc]
    refine ⟨?_, Iff.rfl⟩
    rw [List.take_succ_cons, List.take_zero, Bytes.widthOf_append]
    rfl

/-- Where the first lexeme comes to lie: on to the carriage return behind it, if it is a comment that takes it up. -/
theorem returned_cons_of_next? (later : Lexemes) (hgs : Bytes.glyphs (content.drop offset) = g :: gs)
    (h : Lexeme.next? (g :: gs) = some (lexeme, count)) (hg : g.isFeed = false) :
    (later.cons ⟨offset, offset + Bytes.widthOf ((g :: gs).take count)⟩ lexeme).returned content =
      (later.returned content).cons
        ⟨moved content offset, moved content (offset + Bytes.widthOf ((g :: gs).take count)) +
        if lexeme = .comment then Extent.returnBehind (g :: gs) count else 0⟩ lexeme := by
  rcases Lexeme.next?_forms h with ⟨-, rfl, -⟩ | ⟨hfeed, -, -⟩ | ⟨rfl, hcomment⟩ | ⟨cls, hcls, rfl, -⟩
  · rfl
  · rw [Glyph.isFeed, hfeed] at hg
    cases hg
  · rw [if_pos rfl, returnBehind_eq hgs hcomment]
    rfl
  · have inner : Token.isLineEnd ⟨cls, ⟨offset, offset + Bytes.widthOf ((g :: gs).take count)⟩⟩ = false :=
      beq_eq_false_iff_ne.2 hcls
    rw [if_neg (by simp)]
    simp [cons, returned, Token.returned, inner]

/-- A comment takes up the carriage return behind it, and anything else none. -/
theorem extra_eq_zero_or (lexeme : Lexeme) (gs : List Glyph) (count : Nat) {extra : Nat}
    (h : (if lexeme = .comment then Extent.returnBehind gs count else 0) = extra) :
    extra = 0 ∨ extra = 1 ∧ (gs.drop count).head?.any Glyph.isFeed = true := by
  subst h
  rw [Extent.returnBehind]
  split
  · split
    · rename_i h
      exact .inr ⟨rfl, (Bool.and_eq_true _ _ ▸ h).2⟩
    · exact .inl rfl
  · exact .inl rfl

/-- **A line end with a carriage return**: it begins behind the carriage return, and then the later glyphs are read. -/
theorem scans_returned_feed_iff (hg : g.isFeed = true) (hgs : Bytes.glyphs (content.drop offset) = g :: gs)
    (hlater : ∀ lexemes', Scans (moved content (offset + Bytes.widthOf ((g :: gs).take 1))) (Glyph.returned gs) lexemes' ↔
      Unbroken content later ∧ lexemes' = later.returned content) :
    Scans (moved content offset) (Glyph.returned (g :: gs)) lexemes' ↔
      Unbroken content (later.cons ⟨offset, offset + Bytes.widthOf ((g :: gs).take 1)⟩ (.token .lineEnd)) ∧
        lexemes' =
          (later.cons ⟨offset, offset + Bytes.widthOf ((g :: gs).take 1)⟩ (.token .lineEnd)).returned content := by
  have moves := Bytes.moved_add_widthOf hgs 1
  rw [unbroken_cons_iff, Glyph.returned_feed hg, scans_return_iff, scans_cons_iff (next?_feed hg _)]
  have stop : moved content (offset + Bytes.widthOf ((g :: gs).take 1)) =
      moved content offset + 1 + Bytes.widthOf ((g :: Glyph.returned gs).take 1) := by
    rw [moves, List.take_succ_cons, List.take_zero, Glyph.returned_feed hg, List.take_succ_cons, List.take_zero,
      Glyph.returned_nil, Bytes.widthOf_cons, Nat.add_assoc]
  rw [← stop]
  simp only [List.drop_succ_cons, List.drop_zero, hlater, Lexeme.isQuoted, Bool.false_eq_true, false_imp_iff, true_and]
  constructor
  · rintro ⟨_, ⟨hunbroken, rfl⟩, rfl⟩
    exact ⟨hunbroken, rfl⟩
  · rintro ⟨hunbroken, rfl⟩
    exact ⟨_, ⟨hunbroken, rfl⟩, rfl⟩

/-- **A lexeme with carriage returns** that is no line end: nothing is read if it is a text between quotes on several
lines, and otherwise the lexeme and then the later glyphs are. -/
theorem scans_returned_cons_iff (hnext : Lexeme.next? (g :: gs) = some (lexeme, count)) (hg : g.isFeed = false)
    (hgs : Bytes.glyphs (content.drop offset) = g :: gs)
    (hlater : ∀ lexemes', Scans (moved content (offset + Bytes.widthOf ((g :: gs).take count)))
      (Glyph.returned ((g :: gs).drop count)) lexemes' ↔ Unbroken content later ∧ lexemes' = later.returned content) :
    Scans (moved content offset) (Glyph.returned (g :: gs)) lexemes' ↔
      Unbroken content (later.cons ⟨offset, offset + Bytes.widthOf ((g :: gs).take count)⟩ lexeme) ∧
        lexemes' = (later.cons ⟨offset, offset + Bytes.widthOf ((g :: gs).take count)⟩ lexeme).returned content := by
  have moves := Bytes.moved_add_widthOf hgs count
  rw [unbroken_cons_iff, line_eq_iff hgs]
  have next := Lexeme.next?_returned hnext hg
  by_cases hbroken : lexeme.isQuoted = true ∧ ((g :: gs).take count).any Glyph.isFeed = true
  · rw [hbroken.1, hbroken.2, Bool.and_self, if_pos rfl, Glyph.returned_cons hg] at next
    rw [Glyph.returned_cons hg]
    refine iff_of_false (not_scans next) ?_
    rintro ⟨⟨hline, -⟩, -⟩
    rw [hline hbroken.1] at hbroken
    cases hbroken.2
  · have unbroken : lexeme.isQuoted = true → ((g :: gs).take count).any Glyph.isFeed = false := by
      intro hquoted
      rw [← Bool.not_eq_true]
      exact fun h => hbroken ⟨hquoted, h⟩
    rw [if_neg (by rwa [Bool.and_eq_true])] at next
    generalize hextra : (if lexeme = .comment then Extent.returnBehind (g :: gs) count else 0) = extra at next
    have behind (lexemes' : Lexemes) := scans_behind lexemes' hgs (extra_eq_zero_or lexeme (g :: gs) count hextra)
    have cons := returned_cons_of_next? later hgs hnext hg
    rw [hextra] at cons
    rw [Glyph.returned_cons hg] at next behind ⊢
    have stop : moved content offset +
        Bytes.widthOf ((g :: Glyph.returned gs).take (Extent.grown (g :: gs) count + extra)) =
          moved content (offset + Bytes.widthOf ((g :: gs).take count)) + extra := by
      rw [(behind lexemes').1, moves, Nat.add_assoc]
    rw [scans_cons_iff next, stop, cons]
    have later_iff (lexemes' : Lexemes) := (behind lexemes').2.trans (hlater lexemes')
    rw [← Nat.add_assoc, ← moves] at later_iff
    simp only [later_iff]
    constructor
    · rintro ⟨_, ⟨hunbroken, rfl⟩, rfl⟩
      exact ⟨⟨unbroken, hunbroken⟩, rfl⟩
    · rintro ⟨⟨-, hunbroken⟩, rfl⟩
      exact ⟨_, ⟨hunbroken, rfl⟩, rfl⟩

/-- **What glyphs with carriage returns are read as**: as the lexemes where they come to lie, provided that the texts
between quotes are on one line. The induction is on the lexemes of the glyphs without carriage returns. -/
theorem Scans.returned_iff (h : Scans offset gs lexemes) (hgs : Bytes.glyphs (content.drop offset) = gs) :
    Scans (moved content offset) (Glyph.returned gs) lexemes' ↔
      Unbroken content lexemes ∧ lexemes' = lexemes.returned content := by
  induction h generalizing lexemes' with
  | nil =>
      constructor
      · intro h
        cases h
        exact ⟨by simp [Unbroken], rfl⟩
      · rintro ⟨-, rfl⟩
        exact .nil
  | @cons offset count g gs lexeme later hnext hlater ih =>
      have hrest := Bytes.glyphs_drop hgs count
      rw [List.drop_drop] at hrest
      cases hg : g.isFeed with
      | true =>
          obtain ⟨rfl, rfl⟩ := Prod.mk.inj (Option.some.inj (hnext.symm.trans (next?_feed hg gs)))
          exact scans_returned_feed_iff hg hgs fun _ => ih hrest
      | false => exact scans_returned_cons_iff hnext hg hgs fun _ => ih hrest

/-! ### The lexemes of a source -/

/-- Something that begins at a place takes up at least one glyph. -/
theorem pos_of_next? (h : Lexeme.next? (g :: gs) = some (lexeme, count)) : 0 < count := by
  rcases Lexeme.next?_forms h with ⟨-, -, rfl⟩ | ⟨-, -, rfl⟩ | ⟨-, h⟩ | ⟨cls, hcls, rfl, -⟩
  · exact Nat.one_pos
  · exact Nat.one_pos
  · obtain ⟨-, -, -, hpos, -⟩ := Lexeme.slash_of_comment h
    exact hpos
  · obtain ⟨m, -, rfl, -⟩ := Lexeme.exists_solid_of_next? h hcls
    exact m.succ_pos

/-- What glyphs are read as is found if as many lexemes may be read as there are glyphs. -/
theorem Scans.scan?_eq (h : Scans offset gs lexemes) {n : Nat} (hn : gs.length ≤ n) :
    scan? n offset gs = some lexemes := by
  induction h generalizing n with
  | nil => cases n <;> rfl
  | @cons offset count g gs lexeme later hnext hlater ih =>
      obtain ⟨n, rfl⟩ := Nat.exists_eq_add_one.2 (Nat.lt_of_lt_of_le Nat.zero_lt_one ((Nat.le_add_left 1 _).trans hn))
      have hpos := pos_of_next? hnext
      have later := ih (n := n) (by rw [List.length_drop]; omega)
      exact Option.bind_eq_some_iff.2 ⟨(lexeme, count), hnext, Option.bind_eq_some_iff.2 ⟨_, later, rfl⟩⟩

/-- Where the text of a source begins: behind the byte order mark if it begins with one. -/
def textStart (content : Bytes) : Nat :=
  match content.glyphs with
  | [] => 0
  | g :: _ => if g.is (· == '\uFEFF') then g.width else 0

/-- **The lexemes of a source** are what its glyphs are read as. -/
theorem ofBytes?_eq_some_iff :
    ofBytes? content = some lexemes ↔
      Scans (textStart content) (Bytes.glyphs (content.drop (textStart content))) lexemes := by
  have scan?_iff {n offset : Nat} {gs : List Glyph} (hn : gs.length ≤ n) :
      scan? n offset gs = some lexemes ↔ Scans offset gs lexemes :=
    ⟨scans_of_scan?, fun h => h.scan?_eq hn⟩
  rw [ofBytes?]
  cases hgs : content.glyphs with
  | nil =>
      have start : textStart content = 0 := by rw [textStart, hgs]
      rw [start, List.drop_zero, hgs, ← scan?_iff (Nat.le_refl _)]
      exact Iff.rfl
  | cons g rest =>
      have start : textStart content = if g.is (· == '\uFEFF') then g.width else 0 := by rw [textStart, hgs]
      rw [start]
      dsimp only
      split
      · rw [scan?_iff (Nat.le_refl _), (Bytes.of_glyphs_eq_cons hgs).2]
      · rw [scan?_iff (by simp), List.drop_zero, hgs]

/-- The text begins inside the source, and it begins where it would with carriage returns. -/
theorem textStart_returned (content : Bytes) :
    textStart content ≤ content.length ∧ moved content (textStart content) = textStart content ∧
      textStart (Bytes.returned content) = textStart content := by
  have returned := Bytes.glyphs_returned content
  cases hgs : content.glyphs with
  | nil =>
      rw [hgs, Glyph.returned_nil] at returned
      rw [textStart, textStart, hgs, returned]
      exact ⟨Nat.zero_le _, rfl, rfl⟩
  | cons g rest =>
      have start : textStart content = if g.is (· == '\uFEFF') then g.width else 0 := by rw [textStart, hgs]
      rw [hgs] at returned
      cases hg : g.isFeed with
      | true =>
          rw [Glyph.returned_feed hg] at returned
          rw [start, textStart, returned, Extent.is_eq_false_of_isFeed (by decide) hg]
          exact ⟨Nat.zero_le _, rfl, rfl⟩
      | false =>
          have moves := Bytes.moved_add_widthOf (o := 0) hgs 1
          have inside := Bytes.widthOf_take_le hgs 1
          rw [List.take_succ_cons, List.take_zero, Bytes.widthOf_cons, Bytes.widthOf_nil, Nat.add_zero] at inside
          rw [List.take_succ_cons, List.take_zero, Glyph.returned_cons hg, Glyph.returned_nil, Bytes.moved_zero,
            Nat.zero_add, Bytes.widthOf_cons, Bytes.widthOf_nil, Nat.add_zero] at moves
          rw [Glyph.returned_cons hg] at returned
          rw [start, textStart, returned]
          dsimp only
          split
          · exact ⟨inside, moves, rfl⟩
          · exact ⟨Nat.zero_le _, rfl, rfl⟩

/-- **The lexemes of a source with carriage returns** are those of the source, provided that the texts between quotes
are on one line. -/
theorem ofBytes?_returned (h : ofBytes? content = some lexemes) :
    ofBytes? (Bytes.returned content) = some lexemes' ↔
      Unbroken content lexemes ∧ lexemes' = lexemes.returned content := by
  obtain ⟨hinside, hmoved, hstart⟩ := textStart_returned content
  rw [ofBytes?_eq_some_iff] at h
  have behind : (Bytes.returned content).drop (textStart content) =
      Bytes.returned (content.drop (textStart content)) := by
    rw [← Bytes.drop_returned hinside, hmoved]
  rw [ofBytes?_eq_some_iff, hstart, behind, Bytes.glyphs_returned, ← h.returned_iff rfl, hmoved]

end Lexemes

end Go

end SuiteReport
