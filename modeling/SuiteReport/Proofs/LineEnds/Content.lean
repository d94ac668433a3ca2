import SuiteReport.Proofs.Position
import SuiteReport.Proofs.Text.Decoding
/-!
# Line ends with carriage returns

The lines of a content may end in a line feed alone or in a carriage return and a line feed. To go from the one
style to the other a carriage return is put before every line feed, and then every offset moves on by the line feeds
before it. As line feeds are characters of their own, the glyphs of the content and the text of a span change in
the same way, and every offset stays on its line.

## Main definitions

* `marked`: a list with something put before some of its elements.
* `Bytes.returned`, `Glyph.returned`, `returnedText`: bytes, glyphs and texts with a carriage return before every
  line feed.
* `Bytes.moved`: where an offset comes to lie.

## Main results

* `Bytes.glyphs_returned`: the glyphs of a content with carriage returns.
* `Bytes.text_returned`: the text of a span there.
* `Bytes.line_returned`: every offset stays on its line.
-/

namespace SuiteReport

/-! ### Something put before some elements -/

section Marked

variable {α β : Type} {p : α → Bool} {mark : α} {l m : List α}

/-- The list with `mark` put before each element of a kind. -/
def marked (p : α → Bool) (mark : α) : List α → List α
  | [] => []
  | a :: l => if p a then mark :: a :: marked p mark l else a :: marked p mark l

@[simp]
theorem marked_nil : marked p mark [] = [] := rfl

theorem marked_cons_of_pos {a : α} (h : p a = true) : marked p mark (a :: l) = mark :: a :: marked p mark l :=
  if_pos h

theorem marked_cons_of_neg {a : α} (h : p a = false) : marked p mark (a :: l) = a :: marked p mark l := by
  rw [marked, h]
  rfl

theorem marked_append : marked p mark (l ++ m) = marked p mark l ++ marked p mark m := by
  induction l with
  | nil => rfl
  | cons a l ih =>
      rw [List.cons_append, marked, marked, ih]
      split <;> rfl

/-- Nothing is put into a list without elements of the kind. -/
theorem marked_eq_self (h : ∀ a ∈ l, p a = false) : marked p mark l = l := by
  induction l with
  | nil => rfl
  | cons a l ih =>
      rw [List.forall_mem_cons] at h
      rw [marked_cons_of_neg h.1, ih h.2]

theorem length_marked : (marked p mark l).length = l.length + l.countP p := by
  induction l with
  | nil => rfl
  | cons a l ih =>
      rw [marked, List.countP_cons]
      split <;> simp [ih] <;> omega

/-- Every element that there was is still there. -/
theorem subset_marked : l ⊆ marked p mark l := by
  intro a ha
  induction l with
  | nil => cases ha
  | cons b l ih =>
      rw [marked]
      rcases List.mem_cons.1 ha with rfl | ha
      · split <;> simp
      · have := ih ha
        split <;> simp [this]

/-- What is put in can be taken out again. -/
theorem filter_marked {q : α → Bool} (hmark : q mark = false) : (marked p mark l).filter q = l.filter q := by
  induction l with
  | nil => rfl
  | cons a l ih =>
      rw [marked]
      split
      · rw [List.filter_cons_of_neg (by simp [hmark]), List.filter_cons, List.filter_cons, ih]
      · rw [List.filter_cons, List.filter_cons, ih]

theorem countP_marked {q : α → Bool} (hmark : q mark = false) : (marked p mark l).countP q = l.countP q := by
  rw [List.countP_eq_length_filter, List.countP_eq_length_filter, filter_marked hmark]

end Marked

/-- A text with a carriage return before every line feed. -/
def returnedText (cs : List Char) : List Char := marked (· == '\n') '\r' cs

theorem returnedText_feed (cs : List Char) : returnedText ('\n' :: cs) = '\r' :: '\n' :: returnedText cs :=
  marked_cons_of_pos rfl

theorem returnedText_cons {c : Char} (hc : c ≠ '\n') (cs : List Char) : returnedText (c :: cs) = c :: returnedText cs :=
  marked_cons_of_neg (beq_eq_false_iff_ne.2 hc)

theorem returnedText_append (cs later : List Char) :
    returnedText (cs ++ later) = returnedText cs ++ returnedText later :=
  marked_append

/-- A text on one line stays as it is. -/
theorem returnedText_eq_self {cs : List Char} (h : '\n' ∉ cs) : returnedText cs = cs :=
  marked_eq_self fun _ hc => beq_eq_false_iff_ne.2 fun heq => h (heq ▸ hc)

/-- A text ends in the character that it ended in. -/
theorem getLast?_returnedText (cs : List Char) : (returnedText cs).getLast? = cs.getLast? := by
  rcases List.eq_nil_or_concat cs with rfl | ⟨before, last, rfl⟩
  · rfl
  · rw [List.concat_eq_append, returnedText_append, List.getLast?_append, returnedText, marked]
    split <;> simp

/-- Whether the glyph is a line feed. -/
def Glyph.isFeed (g : Glyph) : Bool := g.is (· == '\n')

/-- A carriage return is no line feed. -/
@[simp]
theorem Glyph.isFeed_return : Glyph.isFeed ⟨some '\r', 1⟩ = false := rfl

/-- Glyphs with a carriage return before every line feed. -/
def Glyph.returned (gs : List Glyph) : List Glyph := marked Glyph.isFeed ⟨some '\r', 1⟩ gs

@[simp]
theorem Glyph.returned_nil : Glyph.returned [] = [] := rfl

theorem Glyph.returned_feed {g : Glyph} (h : g.isFeed = true) (gs : List Glyph) :
    Glyph.returned (g :: gs) = ⟨some '\r', 1⟩ :: g :: Glyph.returned gs :=
  marked_cons_of_pos h

theorem Glyph.returned_cons {g : Glyph} (h : g.isFeed = false) (gs : List Glyph) :
    Glyph.returned (g :: gs) = g :: Glyph.returned gs :=
  marked_cons_of_neg h

theorem Glyph.returned_append (gs later : List Glyph) :
    Glyph.returned (gs ++ later) = Glyph.returned gs ++ Glyph.returned later :=
  marked_append

/-- Without line feeds nothing is put in. -/
theorem Glyph.returned_eq_self {gs : List Glyph} (h : ∀ g ∈ gs, g.isFeed = false) : Glyph.returned gs = gs :=
  marked_eq_self h

namespace Bytes

/-- A content with a carriage return before every line feed. -/
def returned (content : Bytes) : Bytes := marked (· == newline) 0x0D content

/-- Where an offset comes to lie if a carriage return is put before every line feed: just before the carriage return,
if a line feed stood there. -/
def moved (content : Bytes) (o : Nat) : Nat := o + newlines (content.take o)

variable {content first later : Bytes} {o : Nat}

theorem returned_feed (content : Bytes) : returned (newline :: content) = 0x0D :: newline :: returned content :=
  marked_cons_of_pos rfl

theorem returned_cons {b : UInt8} (h : b ≠ newline) (content : Bytes) :
    returned (b :: content) = b :: returned content :=
  marked_cons_of_neg (beq_eq_false_iff_ne.2 h)

/-! ### Offsets -/

theorem moved_zero (content : Bytes) : moved content 0 = 0 := rfl

theorem newlines_append : newlines (first ++ later) = newlines first + newlines later := List.count_append

/-- Offsets move on by the line feeds between them. -/
theorem moved_add {d : Nat} : moved content (o + d) = moved content o + d + newlines ((content.drop o).take d) := by
  rw [moved, moved, List.take_add, newlines_append]
  omega

theorem moved_strictMono (content : Bytes) {o o' : Nat} (h : o < o') : moved content o < moved content o' := by
  obtain ⟨d, rfl⟩ := Nat.exists_eq_add_of_lt h
  rw [Nat.add_assoc, moved_add]
  omega

theorem moved_mono (content : Bytes) {o o' : Nat} (h : o ≤ o') : moved content o ≤ moved content o' := by
  rcases Nat.lt_or_eq_of_le h with h | rfl
  · exact Nat.le_of_lt (moved_strictMono content h)
  · exact Nat.le_refl _

theorem moved_le_moved_iff {o' : Nat} : moved content o ≤ moved content o' ↔ o ≤ o' :=
  ⟨fun h => by
    by_contra hlt
    have := moved_strictMono content (Nat.lt_of_not_le hlt)
    omega, moved_mono content⟩

theorem length_returned (content : Bytes) : (returned content).length = content.length + newlines content :=
  length_marked

/-- The end moves to the end. -/
theorem moved_length (content : Bytes) : moved content content.length = (returned content).length := by
  rw [moved, List.take_length, length_returned]

theorem length_returned_take (h : o ≤ content.length) : (returned (content.take o)).length = moved content o := by
  rw [length_returned, List.length_take, Nat.min_eq_left h, moved]

theorem returned_append : returned (first ++ later) = returned first ++ returned later := marked_append

theorem returned_eq (content : Bytes) (o : Nat) :
    returned content = returned (content.take o) ++ returned (content.drop o) := by
  rw [← returned_append, List.take_append_drop]

/-- Behind an offset, carriage returns are put in as if nothing stood before it. -/
theorem drop_returned (h : o ≤ content.length) :
    (returned content).drop (moved content o) = returned (content.drop o) := by
  rw [returned_eq content o, ← length_returned_take h, List.drop_left]

theorem take_returned (h : o ≤ content.length) :
    (returned content).take (moved content o) = returned (content.take o) := by
  rw [returned_eq content o, ← length_returned_take h, List.take_left]

/-- Carriage returns are no line feeds. -/
theorem newlines_returned (content : Bytes) : newlines (returned content) = newlines content := by
  rw [newlines, newlines, List.count_eq_countP, List.count_eq_countP, returned, countP_marked rfl]

/-- **Every offset stays on its line.** -/
theorem line_returned (h : o ≤ content.length) :
    (Position.ofOffset (returned content) (moved content o)).line = (Position.ofOffset content o).line := by
  rw [Position.line_ofOffset, Position.line_ofOffset, take_returned h, newlines_returned]

/-- The bytes of a span, with carriage returns put in, are those of the span where it comes to lie. -/
theorem extract?_returned (content : Bytes) (s : Span) :
    (returned content).extract? ⟨moved content s.start, moved content s.stop⟩ = (content.extract? s).map returned := by
  have inside : moved content s.stop ≤ (returned content).length ↔ s.stop ≤ content.length := by
    rw [← moved_length, moved_le_moved_iff]
  simp only [extract?, moved_le_moved_iff, inside]
  split
  · rename_i h
    obtain ⟨d, hd⟩ := Nat.exists_eq_add_of_le h.1
    have start : s.start ≤ content.length := h.1.trans h.2
    have length : moved content s.stop - moved content s.start =
        moved (content.drop s.start) (s.stop - s.start) := by
      rw [hd, moved_add, Nat.add_sub_cancel_left, moved, moved, Nat.add_assoc, Nat.add_sub_cancel_left]
    rw [Option.map_some, drop_returned start, length, take_returned]
    rw [List.length_drop]
    omega
  · rfl

/-! ### Glyphs and texts -/

/-- A content that is read as a character begins with the bytes of the character, of which only the first may be below
`0x80`. -/
theorem exists_tail_of_decodeChar? {c : Char} (h : decodeChar? content = some c) :
    ∃ b tail rest, String.utf8EncodeChar c = b :: tail ∧ content = b :: (tail ++ rest) ∧
      ∀ b ∈ tail, 0x80 ≤ b.toNat := by
  obtain ⟨rest, rfl⟩ := exists_of_decodeChar? h
  rcases encode_forms c with ⟨b₀, hform, -⟩ | ⟨b₀, b₁, hform, -, -, -, h₁⟩ |
    ⟨b₀, b₁, b₂, hform, -, -, -, h₁, h₂⟩ | ⟨b₀, b₁, b₂, b₃, hform, -, -, h₁, h₂, h₃⟩
  all_goals
    refine ⟨b₀, _, rest, hform, by rw [hform, List.cons_append], ?_⟩
    simp only [List.forall_mem_cons, List.not_mem_nil, false_imp_iff, implies_true, and_true]
    try omega

/-- Bytes from `0x80` on are no line feeds. -/
theorem ne_newline_of_le {b : UInt8} (h : 0x80 ≤ b.toNat) : b ≠ newline := by
  rintro rfl
  exact absurd h (by decide)

/-- No carriage return is put between bytes from `0x80` on. -/
theorem returned_append_of_high (hfirst : ∀ b ∈ first, 0x80 ≤ b.toNat) :
    returned (first ++ later) = first ++ returned later := by
  have same : returned first = first :=
    marked_eq_self fun b hb => beq_eq_false_iff_ne.2 (ne_newline_of_le (hfirst b hb))
  rw [returned_append, same]

/-- No carriage return is put before or into a character that is no line feed. -/
theorem returned_encodeChar_append {c : Char} (hc : c ≠ '\n') (rest : Bytes) :
    returned (String.utf8EncodeChar c ++ rest) = String.utf8EncodeChar c ++ returned rest := by
  obtain ⟨b, tail, later, hencode, -, htail⟩ := exists_tail_of_decodeChar? (decodeChar?_encode c rest)
  have noFeed : b ≠ newline := by
    rintro rfl
    have read := decodeChar?_encode c rest
    rw [hencode] at read
    exact hc (Option.some.inj (read.symm.trans (decodeChar?_encode '\n' (tail ++ rest))))
  rw [hencode, List.cons_append, returned_cons noFeed, returned_append_of_high htail, List.cons_append]

/-- Bytes from `0x80` on at the beginning of a content with carriage returns stood there before. -/
theorem exists_of_returned_eq_append (h : returned content = first ++ later)
    (hfirst : ∀ b ∈ first, 0x80 ≤ b.toNat) : ∃ rest, content = first ++ rest := by
  induction first generalizing content with
  | nil => exact ⟨content, rfl⟩
  | cons b first ih =>
      rw [List.forall_mem_cons] at hfirst
      cases content with
      | nil => cases h
      | cons c content =>
          by_cases hc : c = newline
          · subst hc
            rw [returned_feed, List.cons_append, List.cons.injEq] at h
            rw [← h.1] at hfirst
            exact absurd hfirst.1 (by decide)
          · rw [returned_cons hc, List.cons_append, List.cons.injEq] at h
            obtain ⟨rest, rfl⟩ := ih h.2 hfirst.2
            exact ⟨rest, by rw [h.1, List.cons_append]⟩

/-- What a byte begins does not depend on carriage returns further on. -/
theorem decodeChar?_cons_returned (b : UInt8) (rest : Bytes) :
    decodeChar? (b :: returned rest) = decodeChar? (b :: rest) := by
  cases h : decodeChar? (b :: rest) with
  | some c =>
      obtain ⟨b', tail, later, hencode, heq, htail⟩ := exists_tail_of_decodeChar? h
      obtain ⟨rfl, rfl⟩ := List.cons.inj heq
      rw [returned_append_of_high htail, ← List.cons_append, ← hencode, decodeChar?_encode]
  | none =>
      rw [Option.eq_none_iff_forall_ne_some]
      intro c hc
      obtain ⟨b', tail, later, hencode, heq, htail⟩ := exists_tail_of_decodeChar? hc
      obtain ⟨rfl, hrest⟩ := List.cons.inj heq
      obtain ⟨rest', rfl⟩ := exists_of_returned_eq_append hrest htail
      rw [← List.cons_append, ← hencode, decodeChar?_encode] at h
      cases h

/-- **The glyphs of a content with carriage returns** are those of the content, with carriage returns before the line
feeds among them. -/
theorem glyphs_returned (content : Bytes) : glyphs (returned content) = Glyph.returned (glyphs content) := by
  induction content using glyphs_induction with
  | nil => rfl
  | character c rest ih =>
      by_cases hfeed : c = '\n'
      · subst hfeed
        have feed (rest : Bytes) : glyphs (newline :: rest) = ⟨some '\n', 1⟩ :: glyphs rest := glyphs_encode '\n' rest
        have ret (rest : Bytes) : glyphs (0x0D :: rest) = ⟨some '\r', 1⟩ :: glyphs rest := glyphs_encode '\r' rest
        have one : String.utf8EncodeChar '\n' ++ rest = newline :: rest := rfl
        rw [one, returned_feed, ret, feed, feed, ih, Glyph.returned_feed rfl]
      · rw [returned_encodeChar_append hfeed, glyphs_encode, glyphs_encode, ih,
          Glyph.returned_cons (by simp [Glyph.isFeed, Glyph.is, hfeed])]
  | byte b rest hb ih =>
      have noFeed : b ≠ newline := by
        rintro rfl
        cases (decodeChar?_encode '\n' rest).symm.trans hb
      have same := decodeChar?_cons_returned b rest
      rw [returned_cons noFeed, glyphs_of_decodeChar?_eq_none hb, glyphs_of_decodeChar?_eq_none (same.trans hb), ih,
        Glyph.returned_cons rfl]

/-- The bytes of some glyphs with carriage returns are those of the glyphs, and one for each carriage return. -/
theorem widthOf_returned (gs : List Glyph) : widthOf (Glyph.returned gs) = widthOf gs + gs.countP Glyph.isFeed := by
  induction gs with
  | nil => rfl
  | cons g gs ih =>
      cases hg : g.isFeed with
      | true =>
          simp only [Glyph.returned_feed hg, widthOf_cons, ih, List.countP_cons, hg, if_true]
          omega
      | false =>
          rw [Glyph.returned_cons hg, widthOf_cons, widthOf_cons, ih, List.countP_cons, hg]
          simp [Nat.add_assoc]

/-- Behind some glyphs, an offset moves on by the bytes of the glyphs with carriage returns. -/
theorem moved_add_widthOf {gs : List Glyph} (h : glyphs (content.drop o) = gs) (n : Nat) :
    moved content (o + widthOf (gs.take n)) = moved content o + widthOf (Glyph.returned (gs.take n)) := by
  rw [moved_add, newlines_take_glyphs h, widthOf_returned, Nat.add_assoc]
  rfl

/-- The characters of a content with carriage returns. -/
theorem decodeChars?_returned (content : Bytes) :
    decodeChars? (returned content) = (decodeChars? content).map returnedText := by
  rw [decodeChars?, decodeChars?, glyphs_returned]
  induction glyphs content with
  | nil => rfl
  | cons g gs ih =>
      rw [List.mapM_cons]
      cases hg : g.char? with
      | none =>
          rw [Glyph.returned_cons (by simp [Glyph.isFeed, Glyph.is, hg]), List.mapM_cons, hg]
          rfl
      | some c =>
          by_cases hc : c = '\n'
          · subst hc
            rw [Glyph.returned_feed (by simp [Glyph.isFeed, Glyph.is, hg]), List.mapM_cons, List.mapM_cons, hg, ih]
            cases gs.mapM Glyph.char? with
            | none => rfl
            | some cs => rfl
          · rw [Glyph.returned_cons (by simp [Glyph.isFeed, Glyph.is, hg, hc]), List.mapM_cons, hg, ih]
            cases gs.mapM Glyph.char? with
            | none => rfl
            | some cs => simp [returnedText, marked, hc]

/-- **The text of a span** where it comes to lie has carriage returns before its line feeds. -/
theorem text_returned (content : Bytes) (s : Span) :
    (returned content).text ⟨moved content s.start, moved content s.stop⟩ =
      String.ofList (returnedText (content.text s).toList) := by
  rw [text, text, extract?_returned]
  cases content.extract? s with
  | none => rfl
  | some bytes =>
      rw [Option.map_some, Option.bind_some, Option.bind_some, decode?, decode?, decodeChars?_returned]
      cases decodeChars? bytes with
      | none => rfl
      | some cs => simp

end Bytes

end SuiteReport
