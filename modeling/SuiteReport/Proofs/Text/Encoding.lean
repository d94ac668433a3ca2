import Mathlib.Data.List.Basic
import SuiteReport.Text.Bytes
/-!
# The encoding of a character

UTF-8 writes a character as one to four bytes, according to its scalar value: a leading byte that tells how many
there are, and bytes of six bits each that continue it. What is read from bytes is what was written: the bytes
at the beginning of a content are read as a character exactly if they are its encoding. Since the leading byte
grows with the scalar value and the others follow it from the highest bits to the lowest, encodings come in the
order of the characters.

## Main results

* `Bytes.encode_forms`: the four forms of an encoding.
* `Bytes.decodeChar?_encode`, `Bytes.exists_of_decodeChar?`: reading is the inverse of writing.
* `Bytes.encodeChar_append_lt`: encodings come in the order of the characters, whatever follows them.
-/

namespace SuiteReport.Bytes

/-! ### Numbers and bytes -/

/-- A number below 256 is that of its byte. -/
theorem toNat_ofNat {n : Nat} (h : n < 0x100) : (UInt8.ofNat n).toNat = n := by
  rw [UInt8.toNat_ofNat']
  exact Nat.mod_eq_of_lt h

/-- A byte is that of its number. -/
theorem ofNat_eq {b : UInt8} {n : Nat} (h : b.toNat = n) : UInt8.ofNat n = b := by
  rw [← h, UInt8.ofNat_toNat]

/-- A byte is not below a bound if its number is not. -/
theorem not_lt_of_toNat {b bound : UInt8} {n : Nat} (hbound : bound.toNat ≤ n) (h : n ≤ b.toNat) :
    ¬ b < bound := by
  rw [UInt8.lt_iff_toNat_lt]
  omega

/-- Scalar values end at `0x10FFFF`. -/
theorem toNat_lt (c : Char) : c.toNat < 0x110000 := by
  rcases c.valid with h | h
  · have : c.toNat < 0xD800 := h
    omega
  · exact h.2

/-- The scalar value made from a number is the one that the number denotes, if it needs its bytes. -/
theorem scalar?_eq_some_iff {least n : Nat} {c : Char} :
    scalar? least n = some c ↔ least ≤ n ∧ c.toNat = n := by
  constructor
  · intro h
    by_cases hn : least ≤ n ∧ n.isValidChar
    · rw [scalar?, dif_pos hn] at h
      obtain rfl := Option.some.inj h
      exact ⟨hn.1, rfl⟩
    · rw [scalar?, dif_neg hn] at h
      cases h
  · rintro ⟨hleast, rfl⟩
    rw [scalar?, dif_pos ⟨hleast, c.valid⟩]
    rfl

/-- A continuation byte carries six bits. -/
theorem continuation?_eq_some_iff {b : UInt8} {n : Nat} :
    continuation? b = some n ↔ n < 0x40 ∧ b.toNat = n + 0x80 := by
  have hlow : (0x80 : UInt8).toNat = 0x80 := rfl
  have hhigh : (0xBF : UInt8).toNat = 0xBF := rfl
  simp only [continuation?, Option.ite_none_right_eq_some, Option.some.injEq, UInt8.le_iff_toNat_le, hlow, hhigh]
  omega

/-! ### The four forms -/

section Forms

variable {c : Char} {b₀ b₁ b₂ b₃ : UInt8} {rest : Bytes}

/-- Up to `0x7F` a character is written as one byte. -/
theorem encode_one (h : c.toNat < 0x80) (h₀ : b₀.toNat = c.toNat) : String.utf8EncodeChar c = [b₀] := by
  have hc : c.val.toNat = c.toNat := rfl
  rw [String.utf8EncodeChar, hc, if_pos (by omega), ofNat_eq h₀]

/-- Up to `0x7FF` a character is written as two bytes. -/
theorem encode_two (hlow : 0x80 ≤ c.toNat) (h : c.toNat < 0x800) (h₀ : b₀.toNat = c.toNat / 0x40 + 0xC0)
    (h₁ : b₁.toNat = c.toNat % 0x40 + 0x80) : String.utf8EncodeChar c = [b₀, b₁] := by
  have hc : c.val.toNat = c.toNat := rfl
  rw [String.utf8EncodeChar, hc, if_neg (by omega), if_pos (by omega), Nat.mod_eq_of_lt (by omega : _ < 0x20),
    ofNat_eq h₀, ofNat_eq h₁]

/-- Up to `0xFFFF` a character is written as three bytes. -/
theorem encode_three (hlow : 0x800 ≤ c.toNat) (h : c.toNat < 0x10000)
    (h₀ : b₀.toNat = c.toNat / 0x1000 + 0xE0) (h₁ : b₁.toNat = c.toNat / 0x40 % 0x40 + 0x80)
    (h₂ : b₂.toNat = c.toNat % 0x40 + 0x80) : String.utf8EncodeChar c = [b₀, b₁, b₂] := by
  have hc : c.val.toNat = c.toNat := rfl
  rw [String.utf8EncodeChar, hc, if_neg (by omega), if_neg (by omega), if_pos (by omega),
    Nat.mod_eq_of_lt (by omega : _ < 0x10), ofNat_eq h₀, ofNat_eq h₁, ofNat_eq h₂]

/-- Any further character is written as four bytes. -/
theorem encode_four (hlow : 0x10000 ≤ c.toNat) (h₀ : b₀.toNat = c.toNat / 0x40000 + 0xF0)
    (h₁ : b₁.toNat = c.toNat / 0x1000 % 0x40 + 0x80) (h₂ : b₂.toNat = c.toNat / 0x40 % 0x40 + 0x80)
    (h₃ : b₃.toNat = c.toNat % 0x40 + 0x80) : String.utf8EncodeChar c = [b₀, b₁, b₂, b₃] := by
  have hc : c.val.toNat = c.toNat := rfl
  have := toNat_lt c
  rw [String.utf8EncodeChar, hc, if_neg (by omega), if_neg (by omega), if_neg (by omega),
    Nat.mod_eq_of_lt (by omega : _ < 0x08), ofNat_eq h₀, ofNat_eq h₁, ofNat_eq h₂, ofNat_eq h₃]

/-- One byte is read as its number. -/
theorem decodeChar?_one (h : b₀.toNat < 0x80) : decodeChar? (b₀ :: rest) = scalar? 0 b₀.toNat := by
  have h80 : b₀ < 0x80 := UInt8.lt_iff_toNat_lt.2 h
  simp only [decodeChar?, h80, if_true]

/-- Two bytes are read as a number of eleven bits. -/
theorem decodeChar?_two (hlow : 0xC0 ≤ b₀.toNat) (h : b₀.toNat < 0xE0) :
    decodeChar? (b₀ :: b₁ :: rest) =
      (continuation? b₁).bind fun n₁ => scalar? 0x80 ((b₀.toNat - 0xC0) * 0x40 + n₁) := by
  have h80 : ¬ b₀ < 0x80 := not_lt_of_toNat (by decide) hlow
  have hC0 : ¬ b₀ < 0xC0 := not_lt_of_toNat (by decide) hlow
  have hE0 : b₀ < 0xE0 := UInt8.lt_iff_toNat_lt.2 h
  simp only [decodeChar?, h80, hC0, hE0, if_true, if_false]
  rfl

/-- Three bytes are read as a number of sixteen bits. -/
theorem decodeChar?_three (hlow : 0xE0 ≤ b₀.toNat) (h : b₀.toNat < 0xF0) :
    decodeChar? (b₀ :: b₁ :: b₂ :: rest) =
      (continuation? b₁).bind fun n₁ => (continuation? b₂).bind fun n₂ =>
        scalar? 0x800 (((b₀.toNat - 0xE0) * 0x40 + n₁) * 0x40 + n₂) := by
  have h80 : ¬ b₀ < 0x80 := not_lt_of_toNat (by decide) hlow
  have hC0 : ¬ b₀ < 0xC0 := not_lt_of_toNat (by decide) hlow
  have hE0 : ¬ b₀ < 0xE0 := not_lt_of_toNat (by decide) hlow
  have hF0 : b₀ < 0xF0 := UInt8.lt_iff_toNat_lt.2 h
  simp only [decodeChar?, h80, hC0, hE0, hF0, if_true, if_false]
  rfl

/-- Four bytes are read as a number of twenty-one bits. -/
theorem decodeChar?_four (hlow : 0xF0 ≤ b₀.toNat) (h : b₀.toNat < 0xF8) :
    decodeChar? (b₀ :: b₁ :: b₂ :: b₃ :: rest) =
      (continuation? b₁).bind fun n₁ => (continuation? b₂).bind fun n₂ => (continuation? b₃).bind fun n₃ =>
        scalar? 0x10000 ((((b₀.toNat - 0xF0) * 0x40 + n₁) * 0x40 + n₂) * 0x40 + n₃) := by
  have h80 : ¬ b₀ < 0x80 := not_lt_of_toNat (by decide) hlow
  have hC0 : ¬ b₀ < 0xC0 := not_lt_of_toNat (by decide) hlow
  have hE0 : ¬ b₀ < 0xE0 := not_lt_of_toNat (by decide) hlow
  have hF0 : ¬ b₀ < 0xF0 := not_lt_of_toNat (by decide) hlow
  have hF8 : b₀ < 0xF8 := UInt8.lt_iff_toNat_lt.2 h
  simp only [decodeChar?, h80, hC0, hE0, hF0, hF8, if_true, if_false]
  rfl

end Forms

/-- **Every encoding has one of four forms.** -/
theorem encode_forms (c : Char) :
    (∃ b₀, String.utf8EncodeChar c = [b₀] ∧ c.toNat < 0x80 ∧ b₀.toNat = c.toNat) ∨
    (∃ b₀ b₁, String.utf8EncodeChar c = [b₀, b₁] ∧ 0x80 ≤ c.toNat ∧ c.toNat < 0x800 ∧
      b₀.toNat = c.toNat / 0x40 + 0xC0 ∧ b₁.toNat = c.toNat % 0x40 + 0x80) ∨
    (∃ b₀ b₁ b₂, String.utf8EncodeChar c = [b₀, b₁, b₂] ∧ 0x800 ≤ c.toNat ∧ c.toNat < 0x10000 ∧
      b₀.toNat = c.toNat / 0x1000 + 0xE0 ∧ b₁.toNat = c.toNat / 0x40 % 0x40 + 0x80 ∧
      b₂.toNat = c.toNat % 0x40 + 0x80) ∨
    ∃ b₀ b₁ b₂ b₃, String.utf8EncodeChar c = [b₀, b₁, b₂, b₃] ∧ 0x10000 ≤ c.toNat ∧
      b₀.toNat = c.toNat / 0x40000 + 0xF0 ∧ b₁.toNat = c.toNat / 0x1000 % 0x40 + 0x80 ∧
      b₂.toNat = c.toNat / 0x40 % 0x40 + 0x80 ∧ b₃.toNat = c.toNat % 0x40 + 0x80 := by
  have hc := toNat_lt c
  have last := toNat_ofNat (n := c.toNat % 0x40 + 0x80) (by omega)
  have middle := toNat_ofNat (n := c.toNat / 0x40 % 0x40 + 0x80) (by omega)
  by_cases h1 : c.toNat < 0x80
  · have lead := toNat_ofNat (n := c.toNat) (by omega)
    exact .inl ⟨_, encode_one h1 lead, h1, lead⟩
  by_cases h2 : c.toNat < 0x800
  · have lead := toNat_ofNat (n := c.toNat / 0x40 + 0xC0) (by omega)
    exact .inr (.inl ⟨_, _, encode_two (by omega) h2 lead last, by omega, h2, lead, last⟩)
  by_cases h3 : c.toNat < 0x10000
  · have lead := toNat_ofNat (n := c.toNat / 0x1000 + 0xE0) (by omega)
    exact .inr (.inr (.inl ⟨_, _, _, encode_three (by omega) h3 lead middle last, by omega, h3, lead, middle, last⟩))
  · have lead := toNat_ofNat (n := c.toNat / 0x40000 + 0xF0) (by omega)
    have second := toNat_ofNat (n := c.toNat / 0x1000 % 0x40 + 0x80) (by omega)
    exact .inr (.inr (.inr ⟨_, _, _, _, encode_four (by omega) lead second middle last, by omega, lead, second,
      middle, last⟩))

/-! ### Reading what was written -/

/-- The encoding of a character is read as the character, whatever follows. -/
theorem decodeChar?_encode (c : Char) (rest : Bytes) :
    decodeChar? (String.utf8EncodeChar c ++ rest) = some c := by
  have hc := toNat_lt c
  have continues : ∀ {b : UInt8} {n : Nat}, b.toNat = n % 0x40 + 0x80 → continuation? b = some (n % 0x40) :=
    fun hb => continuation?_eq_some_iff.2 ⟨Nat.mod_lt _ (by decide), hb⟩
  rcases encode_forms c with ⟨b₀, hform, h, h₀⟩ | ⟨b₀, b₁, hform, hlow, h, h₀, h₁⟩ |
    ⟨b₀, b₁, b₂, hform, hlow, h, h₀, h₁, h₂⟩ | ⟨b₀, b₁, b₂, b₃, hform, hlow, h₀, h₁, h₂, h₃⟩
  all_goals
    rw [hform]
    simp only [List.cons_append, List.nil_append]
  · rw [decodeChar?_one (by omega), scalar?_eq_some_iff]
    exact ⟨Nat.zero_le _, h₀.symm⟩
  · rw [decodeChar?_two (by omega) (by omega), continues h₁, Option.bind_some, scalar?_eq_some_iff]
    omega
  · rw [decodeChar?_three (by omega) (by omega), continues h₁, Option.bind_some, continues h₂, Option.bind_some,
      scalar?_eq_some_iff]
    omega
  · rw [decodeChar?_four (by omega) (by omega), continues h₁, Option.bind_some, continues h₂, Option.bind_some,
      continues h₃, Option.bind_some, scalar?_eq_some_iff]
    omega

/-- What is read as a character begins with the encoding of the character. -/
theorem exists_of_decodeChar? {content : Bytes} {c : Char} (h : decodeChar? content = some c) :
    ∃ rest, content = String.utf8EncodeChar c ++ rest := by
  cases content with
  | nil => cases h
  | cons b₀ rest =>
      by_cases h80 : b₀.toNat < 0x80
      · obtain ⟨-, hc⟩ := scalar?_eq_some_iff.1 (decodeChar?_one h80 ▸ h)
        exact ⟨rest, by rw [encode_one (by omega) hc.symm]; rfl⟩
      have not80 : ¬ b₀ < 0x80 := not_lt_of_toNat (by decide) (Nat.le_of_not_lt h80)
      by_cases hC0 : b₀ < 0xC0
      · simp [decodeChar?, not80, hC0] at h
      have hlow : 0xC0 ≤ b₀.toNat := by simpa [UInt8.lt_iff_toNat_lt] using hC0
      by_cases hE0 : b₀.toNat < 0xE0
      · rcases rest with - | ⟨b₁, rest⟩
        · simp [decodeChar?, not80, hC0] at h
        rw [decodeChar?_two hlow hE0] at h
        obtain ⟨n₁, h₁, h⟩ := Option.bind_eq_some_iff.1 h
        obtain ⟨hn₁, hb₁⟩ := continuation?_eq_some_iff.1 h₁
        obtain ⟨hleast, hc⟩ := scalar?_eq_some_iff.1 h
        refine ⟨rest, ?_⟩
        rw [encode_two (by omega) (by omega) (by omega : b₀.toNat = _) (by omega : b₁.toNat = _)]
        rfl
      have notE0 : ¬ b₀ < 0xE0 := not_lt_of_toNat (by decide) (Nat.le_of_not_lt hE0)
      by_cases hF0 : b₀.toNat < 0xF0
      · rcases rest with - | ⟨b₁, - | ⟨b₂, rest⟩⟩
        · simp [decodeChar?, not80, hC0, notE0] at h
        · simp [decodeChar?, not80, hC0, notE0] at h
        rw [decodeChar?_three (Nat.le_of_not_lt hE0) hF0] at h
        obtain ⟨n₁, h₁, h⟩ := Option.bind_eq_some_iff.1 h
        obtain ⟨n₂, h₂, h⟩ := Option.bind_eq_some_iff.1 h
        obtain ⟨hn₁, hb₁⟩ := continuation?_eq_some_iff.1 h₁
        obtain ⟨hn₂, hb₂⟩ := continuation?_eq_some_iff.1 h₂
        obtain ⟨hleast, hc⟩ := scalar?_eq_some_iff.1 h
        refine ⟨rest, ?_⟩
        rw [encode_three (by omega) (by omega) (by omega : b₀.toNat = _) (by omega : b₁.toNat = _)
          (by omega : b₂.toNat = _)]
        rfl
      have notF0 : ¬ b₀ < 0xF0 := not_lt_of_toNat (by decide) (Nat.le_of_not_lt hF0)
      by_cases hF8 : b₀.toNat < 0xF8
      · rcases rest with - | ⟨b₁, - | ⟨b₂, - | ⟨b₃, rest⟩⟩⟩
        · simp [decodeChar?, not80, hC0, notE0, notF0] at h
        · simp [decodeChar?, not80, hC0, notE0, notF0] at h
        · simp [decodeChar?, not80, hC0, notE0, notF0] at h
        rw [decodeChar?_four (Nat.le_of_not_lt hF0) hF8] at h
        obtain ⟨n₁, h₁, h⟩ := Option.bind_eq_some_iff.1 h
        obtain ⟨n₂, h₂, h⟩ := Option.bind_eq_some_iff.1 h
        obtain ⟨n₃, h₃, h⟩ := Option.bind_eq_some_iff.1 h
        obtain ⟨hn₁, hb₁⟩ := continuation?_eq_some_iff.1 h₁
        obtain ⟨hn₂, hb₂⟩ := continuation?_eq_some_iff.1 h₂
        obtain ⟨hn₃, hb₃⟩ := continuation?_eq_some_iff.1 h₃
        obtain ⟨hleast, hc⟩ := scalar?_eq_some_iff.1 h
        refine ⟨rest, ?_⟩
        rw [encode_four (by omega) (by omega : b₀.toNat = _) (by omega : b₁.toNat = _)
          (by omega : b₂.toNat = _) (by omega : b₃.toNat = _)]
        rfl
      · have notF8 : ¬ b₀ < 0xF8 := not_lt_of_toNat (by decide) (Nat.le_of_not_lt hF8)
        simp [decodeChar?, not80, hC0, notE0, notF0, notF8] at h

/-- The character at the beginning of a content is there as soon as all its bytes are. -/
theorem decodeChar?_take {content : Bytes} {c : Char} (h : decodeChar? content = some c) {n : Nat}
    (hn : c.utf8Size ≤ n) : decodeChar? (content.take n) = some c := by
  obtain ⟨rest, rfl⟩ := exists_of_decodeChar? h
  rw [← String.length_utf8EncodeChar] at hn
  rw [List.take_append, List.take_of_length_le hn, decodeChar?_encode]

/-! ### Order -/

/-- **Encodings come in the order of the characters**, whatever follows them. -/
theorem encodeChar_append_lt {c d : Char} (h : c < d) (xs ys : Bytes) :
    String.utf8EncodeChar c ++ xs < String.utf8EncodeChar d ++ ys := by
  have hlt : c.toNat < d.toNat := h
  have hd := toNat_lt d
  -- Of two forms the longer one has the greater leading byte; within a form the first byte that differs decides.
  rcases encode_forms c with ⟨a₀, hc, hcn⟩ | ⟨a₀, a₁, hc, hcn⟩ | ⟨a₀, a₁, a₂, hc, hcn⟩ |
      ⟨a₀, a₁, a₂, a₃, hc, hcn⟩ <;>
    rcases encode_forms d with ⟨b₀, hd, hdn⟩ | ⟨b₀, b₁, hd, hdn⟩ | ⟨b₀, b₁, b₂, hd, hdn⟩ |
      ⟨b₀, b₁, b₂, b₃, hd, hdn⟩ <;>
    rw [hc, hd] <;>
    simp only [List.cons_append, List.nil_append, List.cons_lt_cons_iff, UInt8.lt_iff_toNat_lt,
      ← UInt8.toNat_inj] <;>
    omega

end SuiteReport.Bytes
