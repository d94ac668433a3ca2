import Mathlib.Data.List.Basic
import SuiteReport.Proofs.Text.Encoding
/-!
# The text of some glyphs

A content falls into glyphs, each with its bytes. As the bytes of a character are enough to tell it, a content
can be cut between any two glyphs: the part before the cut has the first glyphs and the part behind it has the
others. So the text of a span that runs from one glyph to a later one is made up of the characters in between.

## Main definitions

* `Bytes.widthOf`: the number of bytes of some glyphs.

## Main results

* `Bytes.glyphs_drop`, `Bytes.glyphs_take`: cutting a content between two glyphs.
* `Bytes.exists_bytes_of_glyphs`: the bytes of a glyph.
* `Bytes.widthOf_take_le`, `Bytes.newlines_take_glyphs`: how many bytes some glyphs take up, and how many line feeds.
* `Bytes.exists_glyph_of_mem_text`: the characters in the text of a span are those of the glyphs in it.
-/

namespace SuiteReport.Bytes

/-! ### Glyph after glyph -/

/-- The number of bytes of some glyphs. -/
def widthOf (gs : List Glyph) : Nat := (gs.map Glyph.width).foldr (· + ·) 0

@[simp]
theorem widthOf_nil : widthOf [] = 0 := rfl

@[simp]
theorem widthOf_cons (g : Glyph) (gs : List Glyph) : widthOf (g :: gs) = g.width + widthOf gs := rfl

theorem widthOf_append (gs later : List Glyph) : widthOf (gs ++ later) = widthOf gs + widthOf later := by
  induction gs with
  | nil => rw [List.nil_append, widthOf_nil, Nat.zero_add]
  | cons g gs ih => rw [List.cons_append, widthOf_cons, widthOf_cons, ih, Nat.add_assoc]

/-- After some bytes of an earlier glyph, the glyphs are those of the rest. -/
theorem glyphsAfter_eq (skip : Nat) (content : Bytes) : glyphsAfter skip content = glyphs (content.drop skip) := by
  induction skip generalizing content with
  | zero => rfl
  | succ skip ih =>
      cases content with
      | nil => rfl
      | cons b rest => exact ih rest

/-- The character at the beginning of a content is the first glyph, with its bytes. -/
theorem glyphs_of_decodeChar? {content : Bytes} {c : Char} (h : decodeChar? content = some c) :
    content.glyphs = ⟨some c, c.utf8Size⟩ :: glyphs (content.drop c.utf8Size) := by
  cases content with
  | nil => cases h
  | cons b rest =>
      obtain ⟨k, hk⟩ : ∃ k, c.utf8Size = k + 1 := Nat.exists_eq_add_one.2 c.utf8Size_pos
      rw [glyphs, glyphsAfter]
      simp only [h, hk, Nat.add_sub_cancel, List.drop_succ_cons, glyphsAfter_eq]

/-- Behind the first glyph of a content there are the other ones, and if it is a character, the content begins
with that character. -/
theorem of_glyphs_eq_cons {content : Bytes} {g : Glyph} {gs : List Glyph} (h : content.glyphs = g :: gs) :
    (∀ c ∈ g.char?, decodeChar? content = some c ∧ g.width = c.utf8Size) ∧
      glyphs (content.drop g.width) = gs := by
  cases hd : decodeChar? content with
  | some c =>
      rw [glyphs_of_decodeChar? hd, List.cons.injEq] at h
      obtain ⟨rfl, rfl⟩ := h
      exact ⟨by simp, rfl⟩
  | none =>
      cases content with
      | nil => cases h
      | cons b rest =>
          simp only [glyphs, glyphsAfter, hd, List.cons.injEq] at h
          obtain ⟨rfl, rfl⟩ := h
          exact ⟨by simp, rfl⟩

/-- **Behind some glyphs** of a content there are the other ones. -/
theorem glyphs_drop {content : Bytes} {gs : List Glyph} (h : content.glyphs = gs) (n : Nat) :
    glyphs (content.drop (widthOf (gs.take n))) = gs.drop n := by
  induction n generalizing content gs with
  | zero => simpa [widthOf] using h
  | succ n ih =>
      cases gs with
      | nil => simpa [widthOf] using h
      | cons g gs =>
          have hrest := ih (of_glyphs_eq_cons h).2
          rwa [List.drop_drop] at hrest

/-- **The first glyphs** of a content are those of their bytes, if they are characters. -/
theorem glyphs_take {content : Bytes} {gs : List Glyph} (h : content.glyphs = gs) {n : Nat}
    (hchars : ∀ g ∈ gs.take n, g.char?.isSome) :
    glyphs (content.take (widthOf (gs.take n))) = gs.take n := by
  induction n generalizing content gs with
  | zero => rfl
  | succ n ih =>
      cases gs with
      | nil => rfl
      | cons g gs =>
          rw [List.take_succ_cons, List.forall_mem_cons] at hchars
          obtain ⟨hfirst, hrest⟩ := of_glyphs_eq_cons h
          obtain ⟨c, hc⟩ := Option.isSome_iff_exists.1 hchars.1
          obtain ⟨hdecode, hwidth⟩ := hfirst c hc
          have hlater := ih hrest hchars.2
          have hg : g = ⟨some c, c.utf8Size⟩ := by rw [← hc, ← hwidth]
          rw [List.take_succ_cons, widthOf, List.map_cons, List.foldr_cons, ← widthOf, hwidth,
            glyphs_of_decodeChar? (decodeChar?_take hdecode (Nat.le_add_right _ _)), List.drop_take,
            Nat.add_sub_cancel_left, ← hwidth, hlater, ← hc]

/-! ### The bytes of a glyph -/

/-- **A glyph and its bytes.** A glyph is one byte below `0x80`, and is then the character with that number, or it is
made of bytes from `0x80` on, and is then no character below `0x80`. -/
theorem exists_bytes_of_glyphs {content : Bytes} {g : Glyph} {gs : List Glyph} (h : content.glyphs = g :: gs) :
    ∃ bytes rest, content = bytes ++ rest ∧ bytes.length = g.width ∧ glyphs rest = gs ∧
      ((∃ b c, bytes = [b] ∧ g.char? = some c ∧ c.toNat = b.toNat ∧ b.toNat < 0x80) ∨
        bytes ≠ [] ∧ (∀ b ∈ bytes, 0x80 ≤ b.toNat) ∧ ∀ c ∈ g.char?, 0x80 ≤ c.toNat) := by
  cases hd : decodeChar? content with
  | some c =>
      obtain ⟨rest, rfl⟩ := exists_of_decodeChar? hd
      rw [glyphs_of_decodeChar? hd, ← String.length_utf8EncodeChar, List.drop_left, List.cons.injEq] at h
      obtain ⟨rfl, rfl⟩ := h
      refine ⟨_, rest, rfl, rfl, rfl, ?_⟩
      rcases encode_forms c with ⟨b₀, hform, hc, h₀⟩ | ⟨b₀, b₁, hform, hlow, -, h₀, h₁⟩ |
        ⟨b₀, b₁, b₂, hform, hlow, -, h₀, h₁, h₂⟩ | ⟨b₀, b₁, b₂, b₃, hform, hlow, h₀, h₁, h₂, h₃⟩
      · exact .inl ⟨b₀, c, hform, rfl, h₀.symm, by omega⟩
      all_goals
        refine .inr ?_
        rw [hform]
        simp only [List.forall_mem_cons, List.not_mem_nil, false_imp_iff, implies_true, and_true, ne_eq,
          reduceCtorEq, not_false_eq_true, true_and, Option.mem_def, Option.some.injEq, forall_eq']
        omega
  | none =>
      cases content with
      | nil => cases h
      | cons b rest =>
          simp only [glyphs, glyphsAfter, hd, List.cons.injEq] at h
          obtain ⟨rfl, rfl⟩ := h
          have high : 0x80 ≤ b.toNat := by
            by_contra hlow
            rw [decodeChar?_one (Nat.lt_of_not_le hlow), scalar?, dif_pos] at hd
            · cases hd
            · exact ⟨Nat.zero_le _, .inl (by omega)⟩
          exact ⟨[b], rest, rfl, rfl, rfl, .inr (by simpa using high)⟩

/-- Glyphs take up no more bytes than there are. -/
theorem widthOf_take_le {content : Bytes} {gs : List Glyph} (h : content.glyphs = gs) (n : Nat) :
    widthOf (gs.take n) ≤ content.length := by
  induction n generalizing content gs with
  | zero => exact Nat.zero_le _
  | succ n ih =>
      cases gs with
      | nil => exact Nat.zero_le _
      | cons g gs =>
          obtain ⟨bytes, rest, rfl, hwidth, hrest, -⟩ := exists_bytes_of_glyphs h
          rw [List.take_succ_cons, widthOf_cons, List.length_append, hwidth]
          exact Nat.add_le_add_left (ih hrest) _

/-- **Line feeds are glyphs of their own**: the bytes of some glyphs hold as many line feeds as the glyphs do. -/
theorem newlines_take_glyphs {content : Bytes} {gs : List Glyph} (h : content.glyphs = gs) (n : Nat) :
    newlines (content.take (widthOf (gs.take n))) = (gs.take n).countP (·.is (· == '\n')) := by
  induction n generalizing content gs with
  | zero => rfl
  | succ n ih =>
      cases gs with
      | nil => rfl
      | cons g gs =>
          obtain ⟨bytes, rest, rfl, hwidth, hrest, hform⟩ := exists_bytes_of_glyphs h
          have first : newlines bytes = if g.is (· == '\n') then 1 else 0 := by
            rcases hform with ⟨b, c, rfl, hc, heq, -⟩ | ⟨-, high, hc⟩
            · have same : b = newline ↔ c = '\n' := by
                rw [← UInt8.toNat_inj, ← heq, ← Char.toNat_inj]
                rfl
              simp [newlines, Glyph.is, hc, List.count_singleton, same]
            · have noFeed : newline ∉ bytes := fun hmem => absurd (high _ hmem) (by decide)
              have noChar : g.is (· == '\n') = false := by
                cases hg : g.char? with
                | none => simp [Glyph.is, hg]
                | some c =>
                    have := hc c hg
                    simp only [Glyph.is, hg, Option.any_some, beq_eq_false_iff_ne]
                    rintro rfl
                    exact absurd this (by decide)
              rw [newlines, List.count_eq_zero_of_not_mem noFeed, noChar]
              rfl
          rw [List.take_succ_cons, widthOf_cons, ← hwidth, List.take_length_add_append, newlines, List.count_append,
            ← newlines, ← newlines, first, ih hrest, List.countP_cons, Nat.add_comm]

/-- The characters of some glyphs, all of them characters, are those of the single ones. -/
theorem exists_glyph_of_mem_mapM {gs : List Glyph} {cs : List Char} (h : gs.mapM Glyph.char? = some cs)
    {c : Char} (hc : c ∈ cs) : ∃ g ∈ gs, g.char? = some c := by
  induction gs generalizing cs with
  | nil =>
      obtain rfl := Option.some.inj h
      cases hc
  | cons g gs ih =>
      rw [List.mapM_cons] at h
      obtain ⟨first, hfirst, h⟩ := Option.bind_eq_some_iff.1 h
      obtain ⟨later, hlater, h⟩ := Option.bind_eq_some_iff.1 h
      obtain rfl := Option.some.inj h
      rcases List.mem_cons.1 hc with rfl | hc
      · exact ⟨g, List.mem_cons_self, hfirst⟩
      · obtain ⟨g', hg', hc⟩ := ih hlater hc
        exact ⟨g', List.mem_cons_of_mem g hg', hc⟩

/-- **The characters in the text of a span** that takes up some glyphs, all of them characters, are those of the
glyphs. -/
theorem exists_glyph_of_mem_text {content : Bytes} {offset n : Nat} {gs : List Glyph}
    (h : glyphs (content.drop offset) = gs) (hchars : ∀ g ∈ gs.take n, g.char?.isSome) {c : Char}
    (hc : c ∈ (content.text ⟨offset, offset + widthOf (gs.take n)⟩).toList) :
    ∃ g ∈ gs.take n, g.char? = some c := by
  rw [text, extract?] at hc
  split at hc
  · rw [Option.bind_some, Nat.add_sub_cancel_left, decode?] at hc
    cases hd : decodeChars? ((content.drop offset).take (widthOf (gs.take n))) with
    | none =>
        rw [hd] at hc
        simp at hc
    | some cs =>
        rw [hd, Option.map_some, Option.getD_some, String.toList_ofList] at hc
        rw [decodeChars?, glyphs_take h hchars] at hd
        exact exists_glyph_of_mem_mapM hd hc
  · simp at hc

end SuiteReport.Bytes
