import SuiteReport.Proofs.Text.Glyph
/-!
# The encoding of a text

A text is encoded character by character. Bytes are read as a text exactly if they are its encoding. No character
begins inside the encoding of another: where the encoding of a character stands in the encoding of a text, the text
has that character there, and the bytes before and behind encode what is before and behind it. Compared byte by
byte, encodings come in the order of the texts.

## Main definitions

* `Bytes.encode`: the encoding of several characters.

## Main results

* `Bytes.glyphs_induction`: induction on the glyphs of a content.
* `Bytes.decodeChars?_eq_some_iff`: exactly the encodings are read.
* `Bytes.exists_of_encode_eq_append`, `Bytes.decodeChars?_append_encodeChar_append`: cutting a text at a character.
* `Bytes.encode_lt`: encodings come in the order of the texts.
-/

namespace SuiteReport.Bytes

/-- The encoding of several characters. -/
def encode (cs : List Char) : Bytes := cs.flatMap String.utf8EncodeChar

@[simp] theorem encode_nil : encode [] = [] := rfl

@[simp] theorem encode_cons (c : Char) (cs : List Char) : encode (c :: cs) = String.utf8EncodeChar c ++ encode cs :=
  List.flatMap_cons

theorem encode_append (cs ds : List Char) : encode (cs ++ ds) = encode cs ++ encode ds := List.flatMap_append

/-- The encoding of a text is that of its characters. -/
theorem ofString_eq (s : String) : ofString s = encode s.toList := rfl

/-! ### Reading what was written -/

/-- Behind an encoded character the glyphs are those of what follows. -/
theorem glyphs_encode (c : Char) (rest : Bytes) :
    glyphs (String.utf8EncodeChar c ++ rest) = ⟨some c, c.utf8Size⟩ :: glyphs rest := by
  rw [glyphs_of_decodeChar? (decodeChar?_encode c rest), ← String.length_utf8EncodeChar, List.drop_left]

/-- Behind an encoded character everything is read as it is without it. -/
theorem decodeChars?_encode_append (c : Char) (rest : Bytes) :
    decodeChars? (String.utf8EncodeChar c ++ rest) = (decodeChars? rest).map (c :: ·) := by
  rw [decodeChars?, glyphs_encode, List.mapM_cons, decodeChars?]
  cases (glyphs rest).mapM Glyph.char? <;> rfl

/-- The encoding of a text is read as the text. -/
theorem decodeChars?_encode (cs : List Char) : decodeChars? (encode cs) = some cs := by
  induction cs with
  | nil => rfl
  | cons c cs ih => rw [encode_cons, decodeChars?_encode_append, ih, Option.map_some]

/-- **Induction on the glyphs of a content**: what holds of no bytes, and of the encoding of a character or a byte that
begins no character as soon as it holds of what comes behind, holds of every content. -/
theorem glyphs_induction {motive : Bytes → Prop} (nil : motive [])
    (character : ∀ c rest, motive rest → motive (String.utf8EncodeChar c ++ rest))
    (byte : ∀ b rest, decodeChar? (b :: rest) = none → motive rest → motive (b :: rest)) (content : Bytes) :
    motive content := by
  induction hk : content.length using Nat.strongRecOn generalizing content with
  | ind k ih =>
      subst hk
      cases hc : decodeChar? content with
      | some c =>
          obtain ⟨rest, rfl⟩ := exists_of_decodeChar? hc
          have shorter : rest.length < (String.utf8EncodeChar c ++ rest).length := by
            have := c.utf8Size_pos
            rw [List.length_append, String.length_utf8EncodeChar]
            omega
          exact character c rest (ih _ shorter rest rfl)
      | none =>
          cases content with
          | nil => exact nil
          | cons b rest => exact byte b rest hc (ih _ (Nat.lt_succ_self _) rest rfl)

/-- A byte that begins no character is a glyph by itself. -/
theorem glyphs_of_decodeChar?_eq_none {b : UInt8} {rest : Bytes} (h : decodeChar? (b :: rest) = none) :
    glyphs (b :: rest) = ⟨none, 1⟩ :: glyphs rest := by
  simp only [glyphs, glyphsAfter, h]

/-- What is read as a text is the encoding of the text. -/
theorem eq_encode_of_decodeChars? {content : Bytes} {cs : List Char} (h : decodeChars? content = some cs) :
    content = encode cs := by
  induction content using glyphs_induction generalizing cs with
  | nil =>
      obtain rfl := Option.some.inj h
      rfl
  | character c rest ih =>
      rw [decodeChars?_encode_append] at h
      obtain ⟨later, hlater, rfl⟩ := Option.map_eq_some_iff.1 h
      rw [encode_cons, ← ih hlater]
  | byte b rest hb ih =>
      rw [decodeChars?, glyphs_of_decodeChar?_eq_none hb] at h
      simp at h

/-- **Exactly the encodings are read**, each as the text that it encodes. -/
theorem decodeChars?_eq_some_iff {content : Bytes} {cs : List Char} :
    decodeChars? content = some cs ↔ content = encode cs :=
  ⟨eq_encode_of_decodeChars?, fun h => h ▸ decodeChars?_encode cs⟩

/-- A text is decoded exactly from its encoding. -/
theorem decode?_eq_some_iff {content : Bytes} {s : String} : decode? content = some s ↔ content = ofString s := by
  rw [decode?, Option.map_eq_some_iff, ofString_eq]
  constructor
  · rintro ⟨cs, hcs, rfl⟩
    rw [String.toList_ofList, decodeChars?_eq_some_iff.1 hcs]
  · rintro rfl
    exact ⟨s.toList, decodeChars?_encode _, String.ofList_toList⟩

/-! ### Cutting a text -/

/-- No character begins inside the encoding of another one. -/
theorem eq_nil_of_encode_eq_append {c d : Char} {before inner after rest : Bytes}
    (hd : String.utf8EncodeChar d = before ++ inner) (hinner : inner ≠ [])
    (h : String.utf8EncodeChar c ++ after = inner ++ rest) : before = [] := by
  obtain ⟨b, inner, rfl⟩ := List.exists_cons_of_ne_nil hinner
  have hfirst : b.IsUTF8FirstByte := by
    have hsome : 0 < (String.utf8EncodeChar c).length := by simp [c.utf8Size_pos]
    have hb : (String.utf8EncodeChar c)[0] = b := by
      have := congrArg (·[0]?) h
      simpa [List.getElem?_append_left, c.utf8Size_pos] using this
    exact hb ▸ UInt8.isUTF8FirstByte_getElem_zero_utf8EncodeChar
  have hinside : (String.utf8EncodeChar d)[before.length]? = some b := by simp [hd]
  obtain ⟨hlt, hb⟩ := List.getElem?_eq_some_iff.1 hinside
  exact List.length_eq_zero_iff.1 (UInt8.isUTF8FirstByte_getElem_utf8EncodeChar.1 (hb ▸ hfirst))

/-- **Where the encoding of a character stands in the encoding of a text**, the text can be cut. -/
theorem exists_of_encode_eq_append {cs : List Char} {c : Char} {before after : Bytes}
    (h : encode cs = before ++ String.utf8EncodeChar c ++ after) :
    ∃ ds es, cs = ds ++ c :: es ∧ before = encode ds ∧ after = encode es := by
  induction cs generalizing before with
  | nil =>
      have := c.utf8Size_pos
      have := congrArg List.length h
      simp at this
      omega
  | cons d cs ih =>
      rw [encode_cons, List.append_assoc, List.append_eq_append_iff] at h
      rcases h with ⟨inner, rfl, h⟩ | ⟨inner, hd, h⟩
      · rw [← List.append_assoc] at h
        obtain ⟨ds, es, rfl, rfl, rfl⟩ := ih h
        exact ⟨d :: ds, es, rfl, rfl, rfl⟩
      · by_cases hinner : inner = []
        · obtain rfl := hinner
          have front : encode cs = [] ++ String.utf8EncodeChar c ++ after := h.symm
          obtain ⟨ds, es, rfl, hds, rfl⟩ := ih front
          exact ⟨d :: ds, es, rfl, by simp [← hds, hd], rfl⟩
        · obtain rfl := eq_nil_of_encode_eq_append hd hinner h
          rw [List.nil_append] at hd
          obtain rfl : c = d := by
            have hread := decodeChar?_encode c after
            rw [h, ← hd, decodeChar?_encode] at hread
            exact (Option.some.inj hread).symm
          rw [← hd] at h
          exact ⟨[], cs, rfl, rfl, List.append_cancel_left h⟩

/-- **Bytes around the encoding of a character** are read apart from one another. -/
theorem decodeChars?_append_encodeChar_append (before : Bytes) (c : Char) (after : Bytes) :
    decodeChars? (before ++ String.utf8EncodeChar c ++ after) = do
      let first ← decodeChars? before
      let later ← decodeChars? after
      return first ++ c :: later := by
  ext cs
  simp only [decodeChars?_eq_some_iff, Option.bind_eq_bind, Option.bind_eq_some_iff, pure, Option.some.injEq]
  constructor
  · intro h
    obtain ⟨ds, es, rfl, rfl, rfl⟩ := exists_of_encode_eq_append h.symm
    exact ⟨ds, rfl, es, rfl, rfl⟩
  · rintro ⟨ds, rfl, es, rfl, rfl⟩
    rw [encode_append, encode_cons, List.append_assoc]

/-! ### Order -/

/-- **Encodings come in the order of the texts.** -/
theorem encode_lt {cs ds : List Char} (h : cs < ds) : encode cs < encode ds := by
  induction cs generalizing ds with
  | nil =>
      cases ds with
      | nil => simp at h
      | cons d ds =>
          have hne : encode (d :: ds) ≠ [] := by
            have := d.utf8Size_pos
            rw [← List.length_pos_iff, encode_cons, List.length_append, String.length_utf8EncodeChar]
            omega
          obtain ⟨b, rest, hb⟩ := List.exists_cons_of_ne_nil hne
          rw [hb]
          exact List.nil_lt_cons b rest
  | cons c cs ih =>
      cases ds with
      | nil => simp at h
      | cons d ds =>
          rcases List.cons_lt_cons_iff.1 h with hlt | ⟨rfl, hlt⟩
          · exact encodeChar_append_lt hlt _ _
          · exact List.append_left_lt (ih hlt)

end SuiteReport.Bytes
