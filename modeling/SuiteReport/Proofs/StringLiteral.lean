import Mathlib.Data.List.Forall2
import Mathlib.Data.Nat.Digits.Defs
import SuiteReport.Go.StringLiteral
import SuiteReport.Proofs.Text.Decoding
/-!
# What string literals mean

The body of an interpreted literal is a row of items. Each item stands for some bytes: a character and an escape
that names one stand for its encoding, an escape of a single byte for that byte. The literal means the text that
all these bytes together encode, if they encode one. The decoder reads the items in this sense, but looks at
every run of escaped bytes on its own. That comes to the same, since no character begins inside the encoding of
another one: where an item stands for a character, the bytes before it and those behind it encode texts
exactly if all of them together do.

## Main definitions

* `StringLiteral.Spells`: the characters that spell an item, and the bytes that it stands for.
* `StringLiteral.Body`: bodies of interpreted literals, and the bytes that they stand for.
* `StringLiteral.Interpreted`: interpreted literals, and what they mean.

## Main results

* `StringLiteral.resolve?_eq`: reading runs of bytes on their own is reading all bytes together.
* `StringLiteral.decode?_literal`: raw literals, interpreted literals and encodings of a text.
-/

namespace SuiteReport.Go.StringLiteral

/-! ### Interpreted literals -/

/-- The digits up to fifteen, with what they count. -/
def digitValues : List (Char × Nat) := "0123456789abcdef".toList.zipIdx ++ "ABCDEF".toList.zipIdx 10

/-- `Digit radix c d`: the character is a digit of the radix and counts `d`. -/
def Digit (radix : Nat) (c : Char) (d : Nat) : Prop := (c, d) ∈ digitValues ∧ d < radix

/-- `Numeral radix count s n`: the characters are `count` digits of the radix, and denote `n`. -/
def Numeral (radix count : Nat) (s : List Char) (n : Nat) : Prop :=
  s.length = count ∧ ∃ ds, List.Forall₂ (Digit radix) s ds ∧ Nat.ofDigits radix ds.reverse = n

/-- The letters that stand for a character after a backslash. -/
def simpleEscapes : List (Char × Char) := [
  ('a', '\x07'), ('b', '\x08'), ('f', '\x0C'), ('n', '\n'), ('r', '\r'), ('t', '\t'), ('v', '\x0B'),
  ('\\', '\\'), ('"', '"')]

/-- `Escape s bytes`: behind a backslash the characters spell an escape that stands for the bytes. -/
inductive Escape : List Char → Bytes → Prop
  | simple {letter c : Char} (h : (letter, c) ∈ simpleEscapes) : Escape [letter] (String.utf8EncodeChar c)
  | hexadecimal {s : List Char} {b : UInt8} (h : Numeral 16 2 s b.toNat) : Escape ('x' :: s) [b]
  | octal {s : List Char} {b : UInt8} (h : Numeral 8 3 s b.toNat) : Escape s [b]
  | shortScalar {s : List Char} {c : Char} (h : Numeral 16 4 s c.toNat) :
      Escape ('u' :: s) (String.utf8EncodeChar c)
  | longScalar {s : List Char} {c : Char} (h : Numeral 16 8 s c.toNat) :
      Escape ('U' :: s) (String.utf8EncodeChar c)

/-- `Spells s bytes`: the characters spell one item that stands for the bytes. -/
inductive Spells : List Char → Bytes → Prop
  | plain {c : Char} (hline : c ≠ '\n') (hquote : c ≠ '"') (hescape : c ≠ '\\') :
      Spells [c] (String.utf8EncodeChar c)
  | escape {s : List Char} {bytes : Bytes} (h : Escape s bytes) : Spells ('\\' :: s) bytes

/-- `Body s bytes`: the characters are items one after the other that stand for the bytes. -/
inductive Body : List Char → Bytes → Prop
  | nil : Body [] []
  | cons {s later : List Char} {bytes laterBytes : Bytes} (h : Spells s bytes) (hlater : Body later laterBytes) :
      Body (s ++ later) (bytes ++ laterBytes)

/-- `Interpreted literal s`: the literal stands between double quotes, and its body stands for the encoding of
the text. -/
def Interpreted (literal s : String) : Prop :=
  ∃ body, literal.toList = '"' :: (body ++ ['"']) ∧ Body body (Bytes.ofString s)

/-! ### Digits -/

/-- A character up to a letter has a number below 128. -/
theorem toNat_lt_of_le {c bound : Char} (h : c ≤ bound) (hbound : bound.toNat < 128) : c.toNat < 128 :=
  Nat.lt_of_le_of_lt (UInt32.le_iff_toNat_le.1 (Char.le_def.1 h)) hbound

/-- Hexadecimal digits are read as what they count. -/
theorem hexDigit?_eq_some_iff {c : Char} {d : Nat} : hexDigit? c = some d ↔ Digit 16 c d := by
  constructor
  · intro h
    have small : c.toNat < 128 := by
      rw [hexDigit?] at h
      split at h
      · exact toNat_lt_of_le (by rename_i hc; exact hc.2) (by decide)
      split at h
      · exact toNat_lt_of_le (by rename_i hc; exact hc.2) (by decide)
      split at h
      · exact toNat_lt_of_le (by rename_i hc; exact hc.2) (by decide)
      · cases h
    have known : ∀ n < 128, ∀ d ∈ hexDigit? (Char.ofNat n), (Char.ofNat n, d) ∈ digitValues ∧ d < 16 := by
      decide
    have := known c.toNat small d
    rw [Char.ofNat_toNat] at this
    exact this h
  · rintro ⟨h, -⟩
    have known : ∀ entry ∈ digitValues, hexDigit? entry.1 = some entry.2 := by decide
    exact known _ h

/-- Octal digits are read as what they count. -/
theorem octalDigit?_eq_some_iff {c : Char} {d : Nat} : octalDigit? c = some d ↔ Digit 8 c d := by
  constructor
  · intro h
    have small : c.toNat < 128 := by
      rw [octalDigit?] at h
      exact toNat_lt_of_le (Option.ite_none_right_eq_some.1 h).1.2 (by decide)
    have known : ∀ n < 128, ∀ d ∈ octalDigit? (Char.ofNat n), (Char.ofNat n, d) ∈ digitValues ∧ d < 8 := by
      decide
    have := known c.toNat small d
    rw [Char.ofNat_toNat] at this
    exact this h
  · rintro ⟨h, hd⟩
    have known : ∀ entry ∈ digitValues, entry.2 < 8 → octalDigit? entry.1 = some entry.2 := by decide
    exact known _ h hd

/-- No digits denote zero. -/
theorem numeral_zero_iff {radix n : Nat} {s : List Char} : Numeral radix 0 s n ↔ s = [] ∧ n = 0 := by
  constructor
  · rintro ⟨hlength, ds, hds, rfl⟩
    obtain rfl := List.length_eq_zero_iff.1 hlength
    cases hds
    exact ⟨rfl, rfl⟩
  · rintro ⟨rfl, rfl⟩
    exact ⟨rfl, [], .nil, rfl⟩

/-- The first digit of a numeral counts most. -/
theorem numeral_succ_iff {radix count n : Nat} {s : List Char} :
    Numeral radix (count + 1) s n ↔
      ∃ c d later k, s = c :: later ∧ Digit radix c d ∧ Numeral radix count later k ∧ n = d * radix ^ count + k := by
  constructor
  · rintro ⟨hlength, ds, hds, rfl⟩
    obtain ⟨c, later, rfl⟩ := List.exists_cons_of_length_eq_add_one hlength
    obtain ⟨d, ds, hd, hlater, rfl⟩ := List.forall₂_cons_left_iff.1 hds
    have hcount : later.length = count := by simpa using hlength
    refine ⟨c, d, later, Nat.ofDigits radix ds.reverse, rfl, hd, ⟨hcount, ds, hlater, rfl⟩, ?_⟩
    rw [Nat.ofDigits_reverse_cons, ← hlater.length_eq, hcount]
    ring
  · rintro ⟨c, d, later, k, rfl, hd, ⟨hcount, ds, hlater, rfl⟩, rfl⟩
    refine ⟨by simp [hcount], d :: ds, .cons hd hlater, ?_⟩
    rw [Nat.ofDigits_reverse_cons, ← hlater.length_eq, hcount]
    ring

/-- So many digits are read as the numeral that they make up, behind what was read before. -/
theorem digits?_eq_some_iff {digit? : Char → Option Nat} {radix : Nat}
    (hdigit : ∀ {c d}, digit? c = some d ↔ Digit radix c d) {count value n : Nat} {s rest : List Char} :
    digits? digit? radix value count s = some (n, rest) ↔
      ∃ spelling k, s = spelling ++ rest ∧ Numeral radix count spelling k ∧ n = value * radix ^ count + k := by
  induction count generalizing value s with
  | zero =>
      constructor
      · intro h
        cases h
        exact ⟨[], 0, rfl, numeral_zero_iff.2 ⟨rfl, rfl⟩, by simp⟩
      · rintro ⟨spelling, k, rfl, hk, rfl⟩
        obtain ⟨rfl, rfl⟩ := numeral_zero_iff.1 hk
        simp [digits?]
  | succ count ih =>
      constructor
      · intro h
        cases s with
        | nil => cases h
        | cons c s =>
            obtain ⟨d, hd, h⟩ := Option.bind_eq_some_iff.1 h
            obtain ⟨spelling, k, rfl, hk, rfl⟩ := ih.1 h
            refine ⟨c :: spelling, d * radix ^ count + k, rfl, ?_, by ring⟩
            exact numeral_succ_iff.2 ⟨c, d, spelling, k, rfl, hdigit.1 hd, hk, rfl⟩
      · rintro ⟨spelling, n', rfl, hn', rfl⟩
        obtain ⟨c, d, later, k, rfl, hd, hk, rfl⟩ := numeral_succ_iff.1 hn'
        refine Option.bind_eq_some_iff.2 ⟨d, hdigit.2 hd, ih.2 ⟨later, k, rfl, hk, by ring⟩⟩

/-! ### Escapes -/

/-- The bytes that an item contributes. -/
def Item.bytes : Item → Bytes
  | char c => String.utf8EncodeChar c
  | byte b => [b]

/-- The byte with a number is an item. -/
theorem byteItem?_eq_some_iff {n : Nat} {item : Item} :
    byteItem? n = some item ↔ ∃ b : UInt8, b.toNat = n ∧ item = .byte b := by
  rw [byteItem?, Option.ite_none_right_eq_some]
  constructor
  · rintro ⟨hn, h⟩
    obtain rfl := Option.some.inj h
    exact ⟨UInt8.ofNat n, Bytes.toNat_ofNat (by omega), rfl⟩
  · rintro ⟨b, rfl, rfl⟩
    have := b.toNat_lt
    exact ⟨by omega, by rw [UInt8.ofNat_toNat]⟩

/-- The scalar value with a number is an item. -/
theorem scalarItem?_eq_some_iff {n : Nat} {item : Item} :
    scalarItem? n = some item ↔ ∃ c : Char, c.toNat = n ∧ item = .char c := by
  rw [scalarItem?, Option.ite_none_right_eq_some]
  constructor
  · rintro ⟨hn, h⟩
    obtain rfl := Option.some.inj h
    exact ⟨Char.ofNat n, by rw [Char.ofNat, dif_pos hn]; rfl, rfl⟩
  · rintro ⟨c, rfl, rfl⟩
    exact ⟨c.valid, by rw [Char.ofNat_toNat]⟩


/-- A numeral is read as the item with its number. -/
theorem numeralItem_eq_some_iff {digit? : Char → Option Nat} {radix : Nat}
    (hdigit : ∀ {c d}, digit? c = some d ↔ Digit radix c d) {item? : Nat → Option Item} {count : Nat}
    {s rest : List Char} {item : Item} :
    (do
      let (n, s) ← digits? digit? radix 0 count s
      return (← item? n, s)) = some (item, rest) ↔
      ∃ spelling n, s = spelling ++ rest ∧ Numeral radix count spelling n ∧ item? n = some item := by
  constructor
  · intro h
    obtain ⟨⟨n, later⟩, hread, h⟩ := Option.bind_eq_some_iff.1 h
    obtain ⟨read, hitem, h⟩ := Option.bind_eq_some_iff.1 h
    obtain ⟨rfl, rfl⟩ := Prod.mk.inj (Option.some.inj h)
    obtain ⟨spelling, k, rfl, hk, rfl⟩ := (digits?_eq_some_iff hdigit).1 hread
    exact ⟨spelling, k, rfl, hk, by simpa using hitem⟩
  · rintro ⟨spelling, n, rfl, hn, hitem⟩
    have hread : digits? digit? radix 0 count (spelling ++ rest) = some (n, rest) :=
      (digits?_eq_some_iff hdigit).2 ⟨spelling, n, rfl, hn, by simp⟩
    simp only [hread, Option.bind_eq_bind, Option.bind_some, hitem, pure]

/-- A letter stands for the character that the table has for it. -/
theorem simpleEscape?_eq_some_iff {letter c : Char} :
    simpleEscape? letter = some c ↔ (letter, c) ∈ simpleEscapes := by
  constructor
  · intro h
    have member : ∀ {d}, (letter, d) ∈ simpleEscapes → some d = some c → (letter, c) ∈ simpleEscapes :=
      fun hd hc => Option.some.inj hc ▸ hd
    unfold simpleEscape? at h
    split at h
    case h_10 => cases h
    all_goals exact member (by decide) h
  · have known : ∀ entry ∈ simpleEscapes, simpleEscape? entry.1 = some entry.2 := by decide
    exact known (letter, c)

/-- An octal digit begins an escape of three octal digits. -/
theorem escape?_of_octalDigit? {c : Char} {d : Nat} (h : octalDigit? c = some d) (s : List Char) :
    escape? (c :: s) = do
      let (n, s) ← digits? octalDigit? 8 0 3 (c :: s)
      return (← byteItem? n, s) := by
  unfold escape?
  split
  · cases ‹c :: s = []›
  · cases ‹c :: s = _›
    cases h
  · cases ‹c :: s = _›
    cases h
  · cases ‹c :: s = _›
    cases h
  · cases ‹c :: s = _›
    rw [h]

/-- Another letter begins an escape only if the table has it. -/
theorem escape?_of_simpleEscape? {c letter : Char} (h : simpleEscape? letter = some c) (s : List Char) :
    escape? (letter :: s) = some (.char c, s) := by
  have known : ∀ entry ∈ simpleEscapes, octalDigit? entry.1 = none := by decide
  have hoctal := known _ (simpleEscape?_eq_some_iff.1 h)
  unfold escape?
  split
  · cases ‹letter :: s = []›
  · cases ‹letter :: s = _›
    cases h
  · cases ‹letter :: s = _›
    cases h
  · cases ‹letter :: s = _›
    cases h
  · cases ‹letter :: s = _›
    rw [hoctal, h]
    rfl

/-- **What is read after a backslash** spells an escape. -/
theorem exists_of_escape? {s rest : List Char} {item : Item} (h : escape? s = some (item, rest)) :
    ∃ spelling, s = spelling ++ rest ∧ Escape spelling item.bytes := by
  unfold escape? at h
  split at h
  · cases h
  · obtain ⟨spelling, n, rfl, hn, hitem⟩ := (numeralItem_eq_some_iff hexDigit?_eq_some_iff).1 h
    obtain ⟨b, rfl, rfl⟩ := byteItem?_eq_some_iff.1 hitem
    exact ⟨'x' :: spelling, rfl, .hexadecimal hn⟩
  · obtain ⟨spelling, n, rfl, hn, hitem⟩ := (numeralItem_eq_some_iff hexDigit?_eq_some_iff).1 h
    obtain ⟨c, rfl, rfl⟩ := scalarItem?_eq_some_iff.1 hitem
    exact ⟨'u' :: spelling, rfl, .shortScalar hn⟩
  · obtain ⟨spelling, n, rfl, hn, hitem⟩ := (numeralItem_eq_some_iff hexDigit?_eq_some_iff).1 h
    obtain ⟨c, rfl, rfl⟩ := scalarItem?_eq_some_iff.1 hitem
    exact ⟨'U' :: spelling, rfl, .longScalar hn⟩
  · split at h
    · obtain ⟨spelling, n, hs, hn, hitem⟩ := (numeralItem_eq_some_iff octalDigit?_eq_some_iff).1 h
      obtain ⟨b, rfl, rfl⟩ := byteItem?_eq_some_iff.1 hitem
      exact ⟨spelling, hs, .octal hn⟩
    · obtain ⟨c, hc, h⟩ := Option.map_eq_some_iff.1 h
      obtain ⟨rfl, rfl⟩ := Prod.mk.inj h
      exact ⟨[_], rfl, .simple (simpleEscape?_eq_some_iff.1 hc)⟩

/-- **An escape is read** with the bytes that it stands for, whatever follows. -/
theorem exists_escape?_of_escape {spelling : List Char} {bytes : Bytes} (h : Escape spelling bytes)
    (rest : List Char) : ∃ item, escape? (spelling ++ rest) = some (item, rest) ∧ item.bytes = bytes := by
  have hbyte : ∀ b : UInt8, byteItem? b.toNat = some (.byte b) := fun b => byteItem?_eq_some_iff.2 ⟨b, rfl, rfl⟩
  have hscalar : ∀ c : Char, scalarItem? c.toNat = some (.char c) := fun c =>
    scalarItem?_eq_some_iff.2 ⟨c, rfl, rfl⟩
  cases h with
  | simple h => exact ⟨_, escape?_of_simpleEscape? (simpleEscape?_eq_some_iff.2 h) rest, rfl⟩
  | hexadecimal h =>
      exact ⟨_, (numeralItem_eq_some_iff hexDigit?_eq_some_iff).2 ⟨_, _, rfl, h, hbyte _⟩, rfl⟩
  | octal h =>
      have hread : _ = some (_, rest) :=
        (numeralItem_eq_some_iff octalDigit?_eq_some_iff).2 ⟨_, _, rfl, h, hbyte _⟩
      obtain ⟨c, d, later, k, rfl, hd, -, -⟩ := numeral_succ_iff.1 h
      exact ⟨_, (escape?_of_octalDigit? (octalDigit?_eq_some_iff.2 hd) _).trans hread, rfl⟩
  | shortScalar h =>
      exact ⟨_, (numeralItem_eq_some_iff hexDigit?_eq_some_iff).2 ⟨_, _, rfl, h, hscalar _⟩, rfl⟩
  | longScalar h =>
      exact ⟨_, (numeralItem_eq_some_iff hexDigit?_eq_some_iff).2 ⟨_, _, rfl, h, hscalar _⟩, rfl⟩

/-! ### Bodies -/

/-- An escape is read as its item, and what follows it as further items. -/
theorem items?_of_escape? {s later : List Char} {item : Item} (h : escape? s = some (item, later)) :
    items? ('\\' :: s) = (items? later).map (item :: ·) := by
  rw [items?]
  split
  · simp_all
  · simp_all

/-- What is read as items is a body that stands for the bytes of the items. -/
theorem body_of_items? {s : List Char} {items : List Item} (h : items? s = some items) :
    Body s (items.flatMap Item.bytes) := by
  fun_induction items? s generalizing items with
  | case1 =>
      obtain rfl := Option.some.inj h
      exact .nil
  | case2 | case3 | case4 => cases h
  | case5 rest item later hescape ih =>
      obtain ⟨items, hitems, rfl⟩ := Option.map_eq_some_iff.1 h
      obtain ⟨spelling, rfl, hspelling⟩ := exists_of_escape? hescape
      exact .cons (.escape hspelling) (ih hitems)
  | case6 c rest hline hquote hescape ih =>
      obtain ⟨items, hitems, rfl⟩ := Option.map_eq_some_iff.1 h
      exact .cons (.plain hline hquote hescape) (ih hitems)

/-- A body is read as items that stand for its bytes. -/
theorem exists_items?_of_body {s : List Char} {bytes : Bytes} (h : Body s bytes) :
    ∃ items, items? s = some items ∧ items.flatMap Item.bytes = bytes := by
  induction h with
  | nil => exact ⟨[], by rw [items?], rfl⟩
  | cons h hlater ih =>
      obtain ⟨items, hitems, rfl⟩ := ih
      cases h with
      | plain hline hquote hescape =>
          refine ⟨.char _ :: items, ?_, rfl⟩
          rw [List.singleton_append, items?, hitems, Option.map_some]
          · exact hline
          · exact hquote
          · exact hescape
      | escape h =>
          obtain ⟨item, hitem, rfl⟩ := exists_escape?_of_escape h _
          refine ⟨item :: items, ?_, rfl⟩
          rw [List.cons_append, items?_of_escape? hitem, hitems, Option.map_some]

/-- Bodies one after the other are a body. -/
theorem Body.append {s later : List Char} {bytes laterBytes : Bytes} (h : Body s bytes)
    (hlater : Body later laterBytes) : Body (s ++ later) (bytes ++ laterBytes) := by
  induction h with
  | nil => exact hlater
  | cons h _ ih =>
      rw [List.append_assoc, List.append_assoc]
      exact .cons h ih

/-- Spellings of the characters of a text, one after the other, are a body that stands for the text. -/
theorem body_flatten {cs : List Char} {spellings : List (List Char)}
    (h : List.Forall₂ (fun c spelling => Body spelling (String.utf8EncodeChar c)) cs spellings) :
    Body spellings.flatten (Bytes.encode cs) := by
  induction h with
  | nil => exact .nil
  | cons h _ ih => exact h.append ih

/-- **Runs of bytes are read as all bytes together are.** -/
theorem resolve?_eq (pending : Bytes) (items : List Item) :
    resolve? pending items = Bytes.decodeChars? (pending.reverse ++ items.flatMap Item.bytes) := by
  induction items generalizing pending with
  | nil => rw [resolve?, List.flatMap_nil, List.append_nil]
  | cons item items ih =>
      cases item with
      | byte b =>
          rw [resolve?, ih, List.reverse_cons, List.flatMap_cons, List.append_assoc]
          rfl
      | char c =>
          rw [resolve?, ih, List.flatMap_cons, ← List.append_assoc]
          exact (Bytes.decodeChars?_append_encodeChar_append _ _ _).symm

/-- The body of an interpreted literal means the text that its bytes encode. -/
theorem interpreted?_eq_some_iff {body cs : List Char} :
    interpreted? body = some cs ↔ Body body (Bytes.encode cs) := by
  rw [interpreted?, Option.bind_eq_some_iff]
  constructor
  · rintro ⟨items, hitems, h⟩
    rw [resolve?_eq] at h
    have hbytes := Bytes.decodeChars?_eq_some_iff.1 h
    rw [List.reverse_nil, List.nil_append] at hbytes
    exact hbytes ▸ body_of_items? hitems
  · intro h
    obtain ⟨items, hitems, hbytes⟩ := exists_items?_of_body h
    refine ⟨items, hitems, ?_⟩
    rw [resolve?_eq, hbytes]
    exact Bytes.decodeChars?_encode cs

/-! ### Literals -/

/-- What stands between two quotes is found between them. -/
theorem between?_eq_some_iff {quote : Char} {s body : List Char} :
    between? quote s = some body ↔ s = quote :: (body ++ [quote]) := by
  cases s with
  | nil => simp [between?]
  | cons c rest =>
      simp only [between?, Option.ite_none_right_eq_some, Option.some.injEq, List.cons.injEq]
      constructor
      · rintro ⟨⟨rfl, hlast⟩, rfl⟩
        exact ⟨rfl, (List.dropLast_append_getLast? _ hlast).symm⟩
      · rintro ⟨rfl, rfl⟩
        simp

/-- A literal that does not begin with a back quote is an interpreted one or none. -/
theorem decode?_eq_some_iff {literal s : String} (h : literal.toList.head? ≠ some backQuote) :
    decode? literal = some s ↔ Interpreted literal s := by
  have notRaw : between? backQuote literal.toList = none := by
    cases hraw : between? backQuote literal.toList with
    | none => rfl
    | some body =>
        rw [between?_eq_some_iff] at hraw
        rw [hraw] at h
        exact absurd rfl h
  have hs : ∀ cs, String.ofList cs = s ↔ cs = s.toList := fun cs =>
    ⟨fun hcs => by rw [← hcs, String.toList_ofList], fun hcs => by rw [hcs, String.ofList_toList]⟩
  simp only [decode?, decodeChars?, notRaw, Option.map_eq_some_iff, Option.bind_eq_some_iff, between?_eq_some_iff,
    interpreted?_eq_some_iff, hs, exists_eq_right, Interpreted, Bytes.ofString_eq]

/-- **What literals mean.** A raw literal means its body without carriage returns. A literal that does not begin
with a back quote means a text exactly if it is an interpreted literal whose body stands for the encoding of the
text. So whichever spelling is chosen for each character of a text, the literal means the text. -/
theorem decode?_literal :
    (∀ body : List Char, decode? (String.ofList (backQuote :: (body ++ [backQuote]))) =
      some (String.ofList (body.filter (· != '\r')))) ∧
    (∀ literal s : String, literal.toList.head? ≠ some backQuote →
      (decode? literal = some s ↔ Interpreted literal s)) ∧
    ∀ (s : String) (spellings : List (List Char)),
      List.Forall₂ (fun c spelling => Body spelling (String.utf8EncodeChar c)) s.toList spellings →
        decode? (String.ofList ('"' :: (spellings.flatten ++ ['"']))) = some s := by
  refine ⟨fun body => ?_, fun literal s => decode?_eq_some_iff, fun s spellings h => ?_⟩
  · rw [decode?, decodeChars?, String.toList_ofList, between?_eq_some_iff.2 rfl]
    rfl
  · refine (decode?_eq_some_iff ?_).2 ⟨spellings.flatten, String.toList_ofList, body_flatten h⟩
    rw [String.toList_ofList, List.head?_cons]
    decide

/-- The escapes of two bytes, one octal and one hexadecimal, spell a character that takes two bytes. -/
theorem body_twoBytes : Body "\\303\\xa9".toList (String.utf8EncodeChar 'é') := by
  have octal : Escape ['3', '0', '3'] [0xC3] :=
    .octal ⟨rfl, [3, 0, 3], by simp [Digit, digitValues], rfl⟩
  have hexadecimal : Escape ['x', 'a', '9'] [0xA9] :=
    .hexadecimal ⟨rfl, [10, 9], by simp [Digit, digitValues], rfl⟩
  exact .cons (.escape octal) (.cons (.escape hexadecimal) .nil)

/-- The escape of a scalar value spells the same character. -/
theorem body_scalar : Body "\\u00e9".toList (String.utf8EncodeChar 'é') := by
  have scalar : Escape ['u', '0', '0', 'e', '9'] (String.utf8EncodeChar 'é') :=
    .shortScalar ⟨rfl, [0, 0, 14, 9], by simp [Digit, digitValues], rfl⟩
  exact .cons (.escape scalar) .nil

/-- Two spellings of one character side by side, and the literal that they make up. -/
theorem decode?_literal_twoSpellings :
    List.Forall₂ (fun c spelling => Body spelling (String.utf8EncodeChar c)) "éé".toList
        ["\\303\\xa9".toList, "\\u00e9".toList] ∧
      decode? "\"\\303\\xa9\\u00e9\"" = some "éé" ∧
      "\"\\303\\xa9\\u00e9\"".toList.head? ≠ some backQuote ∧
      Interpreted "\"\\303\\xa9\\u00e9\"" "éé" := by
  have spellings : List.Forall₂ (fun c spelling => Body spelling (String.utf8EncodeChar c)) "éé".toList
      ["\\303\\xa9".toList, "\\u00e9".toList] := .cons body_twoBytes (.cons body_scalar .nil)
  have quoted : "\"\\303\\xa9\\u00e9\"".toList.head? ≠ some backQuote := by decide
  have means := decode?_literal.2.2 "éé" _ spellings
  exact ⟨spellings, means, quoted, (decode?_literal.2.1 _ _ quoted).1 means⟩

end SuiteReport.Go.StringLiteral
