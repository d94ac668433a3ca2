import SuiteReport.Proofs.CommentGap
import SuiteReport.Proofs.Source.Lexeme
/-!
# Where lexemes stand

Every token and every comment of a source begins where something of its kind begins, and no two of them share a
byte. On the line where it ends each of them has a byte that is not white space, so whoever looks for such bytes
in front of a place finds every token and every comment that is there.

## Main definitions

* `Lexemes.Has`: the tokens and the comments of a source, with the bytes that they cover.

## Main results

* `Lexemes.Scans.exists_next?`: what stands where a token or a comment begins.
* `Lexemes.Scans.apart`: no two tokens or comments share a byte.
* `Lexemes.exists_mark`: a token or a comment shows on the line where it ends.
-/

namespace SuiteReport.Bytes

/-- The last byte of a glyph is from `0x80` on, or the glyph is the character with its number. -/
theorem exists_last_byte {content : Bytes} {gs : List Glyph} (h : content.glyphs = gs) {m : Nat} {g : Glyph}
    (hg : gs[m]? = some g) :
    ∃ k b, widthOf (gs.take (m + 1)) = k + 1 ∧ content[k]? = some b ∧
      (0x80 ≤ b.toNat ∨ ∃ c ∈ g.char?, c.toNat = b.toNat) := by
  induction m generalizing content gs with
  | zero =>
      obtain ⟨rest, rfl⟩ : ∃ rest, gs = g :: rest := by
        cases gs with
        | nil => cases hg
        | cons first rest => exact ⟨rest, by rw [Option.some.inj hg]⟩
      obtain ⟨bytes, later, rfl, hwidth, -, hform⟩ := exists_bytes_of_glyphs h
      have filled : bytes ≠ [] := by
        rcases hform with ⟨b, c, rfl, -⟩ | ⟨hne, -⟩
        · exact List.cons_ne_nil _ _
        · exact hne
      obtain ⟨k, hk⟩ := Nat.exists_eq_add_one.2 (List.length_pos_iff.2 filled)
      have last : bytes[k]? = some bytes[k] := List.getElem?_eq_getElem (by omega)
      refine ⟨k, bytes[k], ?_, ?_, ?_⟩
      · rw [List.take_succ_cons, widthOf_cons, ← hwidth, hk]
        rfl
      · rw [List.getElem?_append_left (by omega), last]
      · rcases hform with ⟨b, c, rfl, hc, heq, -⟩ | ⟨-, high, -⟩
        · exact .inr ⟨c, hc, by simpa using heq⟩
        · exact .inl (high _ (List.getElem_mem _))
  | succ m ih =>
      cases gs with
      | nil => cases hg
      | cons first gs =>
          obtain ⟨bytes, later, rfl, hwidth, hlater, -⟩ := exists_bytes_of_glyphs h
          obtain ⟨k, b, hk, hb, hform⟩ := ih hlater hg
          refine ⟨bytes.length + k, b, ?_, ?_, hform⟩
          · rw [List.take_succ_cons, widthOf_cons, hk, hwidth]
            rfl
          · rw [List.getElem?_append_right (Nat.le_add_right _ _), Nat.add_sub_cancel_left, hb]

/-- A byte of white space is below `0x80`, and the character with its number is not solid. -/
theorem not_solid_of_isBlank {b : UInt8} (h : isBlank b = true) :
    b.toNat < 0x80 ∧ ∀ c : Char, c.toNat = b.toNat → Go.Extent.isSolid c = false := by
  have char {c d : Char} (hc : c.toNat = d.toNat) (hd : Go.Extent.isSolid d = false) :
      Go.Extent.isSolid c = false := by
    rwa [Char.toNat_inj.1 hc]
  simp only [isBlank, Bool.or_eq_true, beq_iff_eq, or_assoc] at h
  rcases h with rfl | rfl | rfl | rfl | rfl
  · exact ⟨by decide, fun c hc => char (d := ' ') hc (by decide)⟩
  · exact ⟨by decide, fun c hc => char (d := '\t') hc (by decide)⟩
  · exact ⟨by decide, fun c hc => char (d := '\n') hc (by decide)⟩
  · exact ⟨by decide, fun c hc => char (d := '\x0C') hc (by decide)⟩
  · exact ⟨by decide, fun c hc => char (d := '\r') hc (by decide)⟩

/-- A solid character ends in a byte that is not white space. -/
theorem exists_last_byte_of_solid {content : Bytes} {gs : List Glyph} (h : content.glyphs = gs) {m : Nat} {g : Glyph}
    (hg : gs[m]? = some g) (hsolid : g.is Go.Extent.isSolid = true) :
    ∃ k b, widthOf (gs.take (m + 1)) = k + 1 ∧ content[k]? = some b ∧ isBlank b = false := by
  obtain ⟨k, b, hk, hb, hform⟩ := exists_last_byte h hg
  refine ⟨k, b, hk, hb, ?_⟩
  rw [← Bool.not_eq_true]
  intro hblank
  obtain ⟨hlow, hchar⟩ := not_solid_of_isBlank hblank
  rcases hform with hhigh | ⟨c, hc, heq⟩
  · omega
  · rw [Glyph.is, hc, Option.any_some, hchar c heq] at hsolid
    cases hsolid

end SuiteReport.Bytes

namespace SuiteReport.Go

namespace Lexemes

variable {content : Bytes} {lexemes later : Lexemes} {lexeme lexeme' first : Lexeme} {span span' : Span}
  {offset : Nat} {gs : List Glyph}

/-- Whether a token or a comment of the kind covers just the span. -/
def Has (lexemes : Lexemes) : Lexeme → Span → Prop
  | .blank, _ => False
  | .comment, span => span ∈ lexemes.comments
  | .token cls, span => ⟨cls, span⟩ ∈ lexemes.tokens

/-- What the lexemes have is the first of them or among the later ones. -/
theorem Has.of_cons (h : (later.cons span first).Has lexeme span') :
    lexeme = first ∧ span' = span ∨ later.Has lexeme span' := by
  cases lexeme with
  | blank => cases h
  | comment =>
      cases first with
      | comment => exact (List.mem_cons.1 h).imp (fun h => ⟨rfl, h⟩) id
      | blank | token => exact .inr h
  | token cls =>
      cases first with
      | token cls' =>
          refine (List.mem_cons.1 h).imp (fun h => ?_) id
          obtain ⟨rfl, rfl⟩ := Token.mk.inj h
          exact ⟨rfl, rfl⟩
      | blank | comment => exact .inr h

/-- **What stands where a token or a comment begins** is just that, and it reaches as far. -/
theorem Scans.exists_next? (h : Scans offset gs lexemes) (hgs : Bytes.glyphs (content.drop offset) = gs)
    (hs : lexemes.Has lexeme span) :
    offset ≤ span.start ∧ ∃ g rest count, Bytes.glyphs (content.drop span.start) = g :: rest ∧
      Lexeme.next? (g :: rest) = some (lexeme, count) ∧
      span.stop = span.start + Bytes.widthOf ((g :: rest).take count) := by
  induction h with
  | nil => cases lexeme <;> cases hs
  | @cons offset count g gs first later hnext hlater ih =>
      rcases hs.of_cons with ⟨rfl, rfl⟩ | hs
      · exact ⟨Nat.le_refl _, g, gs, count, hgs, hnext, rfl⟩
      · have hrest := Bytes.glyphs_drop hgs count
        rw [List.drop_drop] at hrest
        obtain ⟨hle, hfound⟩ := ih hrest hs
        exact ⟨(Nat.le_add_right _ _).trans hle, hfound⟩

/-- **No two tokens or comments share a byte.** -/
theorem Scans.apart (h : Scans offset gs lexemes) (hgs : Bytes.glyphs (content.drop offset) = gs)
    (hs : lexemes.Has lexeme span) (hs' : lexemes.Has lexeme' span') :
    span = span' ∨ span.stop ≤ span'.start ∨ span'.stop ≤ span.start := by
  induction h with
  | nil => cases lexeme <;> cases hs
  | @cons offset count g gs first later hnext hlater ih =>
      have hrest := Bytes.glyphs_drop hgs count
      rw [List.drop_drop] at hrest
      rcases hs.of_cons with ⟨-, rfl⟩ | hs
      · rcases hs'.of_cons with ⟨-, rfl⟩ | hs'
        · exact .inl rfl
        · exact .inr (.inl (hlater.exists_next? hrest hs').1)
      · rcases hs'.of_cons with ⟨-, rfl⟩ | hs'
        · exact .inr (.inr (hlater.exists_next? hrest hs).1)
        · exact ih hrest hs hs'

/-- A token or a comment that has a byte before another one begins ends before it begins. -/
theorem stop_le_start (h : ofBytes? content = some lexemes) (hs : lexemes.Has lexeme span)
    (hs' : lexemes.Has lexeme' span') {p : Nat} (hp : Inside span p) (hlt : p < span'.start) :
    span.stop ≤ span'.start := by
  obtain ⟨offset, hscans⟩ := exists_scans h
  obtain ⟨hstart, hstop⟩ := hp
  rcases hscans.apart rfl hs hs' with rfl | h | h
  · omega
  · exact h
  · obtain ⟨-, g, rest, count, -, -, hend⟩ := hscans.exists_next? rfl hs'
    omega

/-- What ends in a solid character shows on the line where it ends, by the last byte of that character. -/
theorem exists_mark_of_last {rest : List Glyph} {g found : Glyph} {m : Nat}
    (hgs : Bytes.glyphs (content.drop span.start) = g :: rest)
    (hstop : span.stop = span.start + Bytes.widthOf ((g :: rest).take (m + 1)))
    (hfound : (g :: rest)[m]? = some found) (hsolid : found.is Extent.isSolid = true) :
    ∃ p b, Inside span p ∧ content[p]? = some b ∧ Bytes.isBlank b = false ∧
      (Position.ofOffset content p).line = (Position.ofOffset content span.stop).line := by
  obtain ⟨k, b, hk, hb, hblank⟩ := Bytes.exists_last_byte_of_solid hgs hfound hsolid
  rw [List.getElem?_drop] at hb
  have hend : span.stop = span.start + k + 1 := by rw [hstop, hk]; rfl
  refine ⟨span.start + k, b, ⟨by omega, by omega⟩, hb, hblank, ?_⟩
  have noFeed : (b == Bytes.newline) = false := by
    rw [← Bool.not_eq_true, beq_iff_eq]
    rintro rfl
    cases hblank
  rw [hend, Position.ofOffset, Position.ofOffset, Position.advance_succ _ hb, Position.after, noFeed]
  rfl

/-- What is on one line and begins with a solid character shows there, by that character. -/
theorem exists_mark_of_first {rest : List Glyph} {g : Glyph} {count : Nat}
    (hgs : Bytes.glyphs (content.drop span.start) = g :: rest)
    (hstop : span.stop = span.start + Bytes.widthOf ((g :: rest).take count)) (hpos : 0 < count)
    (hsolid : g.is Extent.isSolid = true) (hline : ∀ h ∈ (g :: rest).take count, h.is (· == '\n') = false) :
    ∃ p b, Inside span p ∧ content[p]? = some b ∧ Bytes.isBlank b = false ∧
      (Position.ofOffset content p).line = (Position.ofOffset content span.stop).line := by
  obtain ⟨k, b, hk, hb, hblank⟩ := Bytes.exists_last_byte_of_solid hgs (m := 0) rfl hsolid
  have noFeeds := Bytes.newlines_take_glyphs hgs count
  rw [List.countP_eq_zero.2 fun g hg => by simp [hline g hg]] at noFeeds
  have sameLine : (Position.ofOffset content span.start).line = (Position.ofOffset content span.stop).line := by
    have behind : span.stop - span.start = Bytes.widthOf ((g :: rest).take count) := by omega
    rw [Position.line_ofOffset, Position.line_ofOffset,
      Position.newlines_take (by omega : span.start ≤ span.stop), behind, noFeeds, Nat.add_zero]
  obtain ⟨count, rfl⟩ := Nat.exists_eq_add_one.2 hpos
  rw [List.take_succ_cons, Bytes.widthOf_cons] at hk hstop
  rw [List.getElem?_drop] at hb
  have hend : span.start + k < span.stop := by
    rw [List.take_zero, Bytes.widthOf_nil] at hk
    omega
  refine ⟨span.start + k, b, ⟨Nat.le_add_right _ _, hend⟩, hb, hblank, ?_⟩
  have := Position.line_le_line content (Nat.le_add_right span.start k)
  have := Position.line_le_line content (Nat.le_of_lt hend)
  omega

/-- **A token or a comment shows on the line where it ends**: it has a byte there that is not white space. Line ends
are the exception. -/
theorem exists_mark (h : ofBytes? content = some lexemes) (hs : lexemes.Has lexeme span)
    (hlexeme : lexeme ≠ .token .lineEnd) :
    ∃ p b, Inside span p ∧ content[p]? = some b ∧ Bytes.isBlank b = false ∧
      (Position.ofOffset content p).line = (Position.ofOffset content span.stop).line := by
  obtain ⟨offset, hscans⟩ := exists_scans h
  obtain ⟨-, g, rest, count, hgs, hnext, hstop⟩ := hscans.exists_next? rfl hs
  have solid_of_slash {g : Glyph} (hg : g.is (· == '/') = true) : g.is Extent.isSolid = true :=
    is_of_is hg fun c hc => by rw [beq_iff_eq.1 hc]; rfl
  cases lexeme with
  | blank => cases hs
  | token cls =>
      obtain ⟨m, found, rfl, hfound, hsolid⟩ := Lexeme.exists_solid_of_next? hnext (by simpa using hlexeme)
      exact exists_mark_of_last hgs hstop hfound hsolid
  | comment =>
      rcases Lexeme.next?_forms hnext with ⟨-, h, -⟩ | ⟨-, h, -⟩ | ⟨-, hcomment⟩ | ⟨_, -, h, -⟩
      · cases h
      · cases h
      · obtain ⟨s, later, heq, hpos, hslash, hline | ⟨m, found, rfl, hfound, hend⟩⟩ := Lexeme.slash_of_comment hcomment
        · obtain ⟨rfl, rfl⟩ := List.cons.inj heq
          exact exists_mark_of_first hgs hstop hpos (solid_of_slash hslash) hline
        · exact exists_mark_of_last hgs hstop hfound (solid_of_slash hend)
      · cases h

/-- Behind a line end a later line begins. -/
theorem line_lt_of_lineEnd (h : ofBytes? content = some lexemes) (hs : lexemes.Has (.token .lineEnd) span) {p : Nat}
    (hp : Inside span p) : (Position.ofOffset content p).line < (Position.ofOffset content span.stop).line := by
  obtain ⟨offset, hscans⟩ := exists_scans h
  obtain ⟨-, g, rest, count, hgs, hnext, hstop⟩ := hscans.exists_next? rfl hs
  rcases Lexeme.next?_forms hnext with ⟨-, h, -⟩ | ⟨hfeed, -, rfl⟩ | ⟨h, -⟩ | ⟨_, hcls, h, -⟩
  · cases h
  · obtain ⟨c, hc, heq⟩ := (Option.any_eq_true _ _).1 hfeed
    obtain ⟨hwidth, -⟩ := isSpace_of_glyph hgs hc (.inr (beq_iff_eq.1 heq))
    have feeds := Bytes.newlines_take_glyphs hgs 1
    simp only [List.take_succ_cons, List.take_zero, Bytes.widthOf_cons, Bytes.widthOf_nil, hwidth,
      List.countP_singleton, hfeed, if_true] at feeds hstop
    have behind : span.stop - span.start = 1 := by omega
    obtain ⟨hstart, hend⟩ := hp
    obtain rfl : p = span.start := by omega
    rw [Position.line_ofOffset, Position.line_ofOffset, Position.newlines_take (by omega : span.start ≤ span.stop),
      behind, feeds]
    omega
  · cases h
  · cases h
    exact absurd rfl hcls

end Lexemes

end SuiteReport.Go
