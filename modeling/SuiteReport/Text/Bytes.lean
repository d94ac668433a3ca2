/-!
# Bytes and spans

The content of a file is a list of bytes, addressed by offsets from its beginning. A span is a half-open
range of offsets. Text is taken out of bytes by decoding UTF-8 strictly: there is no text unless every
byte belongs to a well-formed scalar value.

## Main definitions

* `Bytes.extract?`: the bytes of a span, if the span lies inside the content.
* `Bytes.glyphs`: the characters of a content, and the bytes that belong to none.
* `Bytes.decode?`: the text that a list of bytes encodes, if it encodes one.
* `Bytes.ofString`: the encoding of a text.
-/

namespace SuiteReport

/-- The content of a file, byte for byte. -/
abbrev Bytes := List UInt8

/-- A half-open range of byte offsets: `start` belongs to it and `stop` does not. -/
structure Span where
  /-- The offset of the first byte. -/
  start : Nat
  /-- The offset just past the last byte. -/
  stop : Nat
deriving DecidableEq, Repr

namespace Span

/-- The number of bytes, which is zero for an inverted span. -/
def length (s : Span) : Nat := s.stop - s.start

/-- Whether the span covers no byte. -/
def isEmpty (s : Span) : Bool := s.length == 0

/-- The least span that covers both. -/
def hull (s t : Span) : Span := ⟨min s.start t.start, max s.stop t.stop⟩

/-- Whether `t` lies inside `s`, ends included. -/
def covers (s t : Span) : Bool := s.start ≤ t.start && t.stop ≤ s.stop

end Span

namespace Bytes

/-- The line feed, which ends a line. -/
def newline : UInt8 := 0x0A

/-- The bytes of a span, or `none` if the span is inverted or reaches beyond the content. -/
def extract? (content : Bytes) (s : Span) : Option Bytes :=
  if s.start ≤ s.stop ∧ s.stop ≤ content.length then
    some ((content.drop s.start).take (s.stop - s.start))
  else
    none

/-- The number of line feeds. -/
def newlines (content : Bytes) : Nat := content.count newline

/-- ASCII white space: blank, tab, line feed, form feed and carriage return. -/
def isBlank (b : UInt8) : Bool :=
  b == 0x20 || b == 0x09 || b == 0x0A || b == 0x0C || b == 0x0D

/-! ### UTF-8 -/

/-- The encoding of a text. -/
def ofString (s : String) : Bytes := s.toList.flatMap String.utf8EncodeChar

/-- The low six bits that a continuation byte carries, or `none` for any other byte. -/
def continuation? (b : UInt8) : Option Nat :=
  if 0x80 ≤ b ∧ b ≤ 0xBF then some (b.toNat - 0x80) else none

/-- The scalar value `n`, provided that it needs the number of bytes it was read from (so is at least
`least`) and is no surrogate. -/
def scalar? (least n : Nat) : Option Char :=
  if h : least ≤ n ∧ n.isValidChar then some (Char.ofNatAux n h.2) else none

/-- The scalar value whose encoding the content begins with, or `none` if it does not begin with a
well-formed one. -/
def decodeChar? : Bytes → Option Char
  | [] => none
  | b₀ :: rest =>
    if b₀ < 0x80 then
      scalar? 0 b₀.toNat
    else if b₀ < 0xC0 then
      none
    else if b₀ < 0xE0 then
      match rest with
      | b₁ :: _ => do
        let n₁ ← continuation? b₁
        scalar? 0x80 ((b₀.toNat - 0xC0) * 0x40 + n₁)
      | _ => none
    else if b₀ < 0xF0 then
      match rest with
      | b₁ :: b₂ :: _ => do
        let n₁ ← continuation? b₁
        let n₂ ← continuation? b₂
        scalar? 0x800 (((b₀.toNat - 0xE0) * 0x40 + n₁) * 0x40 + n₂)
      | _ => none
    else if b₀ < 0xF8 then
      match rest with
      | b₁ :: b₂ :: b₃ :: _ => do
        let n₁ ← continuation? b₁
        let n₂ ← continuation? b₂
        let n₃ ← continuation? b₃
        scalar? 0x10000 ((((b₀.toNat - 0xF0) * 0x40 + n₁) * 0x40 + n₂) * 0x40 + n₃)
      | _ => none
    else
      none

end Bytes

/-- One step through a content that is meant to be text: a character, or a byte that belongs to none. -/
structure Glyph where
  /-- The character, or `none` for a byte that is no part of a well-formed encoding. -/
  char? : Option Char
  /-- The number of bytes. -/
  width : Nat
deriving DecidableEq, Repr

/-- Whether the glyph is a character of a class. -/
def Glyph.is (g : Glyph) (p : Char → Bool) : Bool := g.char?.any p

namespace Bytes

/-- The glyphs of a content, after `skip` bytes that belong to an earlier one. -/
def glyphsAfter : Nat → Bytes → List Glyph
  | _, [] => []
  | skip + 1, _ :: rest => glyphsAfter skip rest
  | 0, b :: rest =>
    match decodeChar? (b :: rest) with
    | some c => ⟨some c, c.utf8Size⟩ :: glyphsAfter (c.utf8Size - 1) rest
    | none => ⟨none, 1⟩ :: glyphsAfter 0 rest

/-- The glyphs of a content. -/
def glyphs (content : Bytes) : List Glyph := glyphsAfter 0 content

/-- The scalar values that the content encodes, or `none` if some byte is not part of a well-formed
encoding. -/
def decodeChars? (content : Bytes) : Option (List Char) := (glyphs content).mapM Glyph.char?

/-- The text that the content encodes, or `none` if it encodes none. -/
def decode? (content : Bytes) : Option String := (decodeChars? content).map String.ofList

/-- The text of a span: empty if the span is out of range or its bytes encode no text. -/
def text (content : Bytes) (s : Span) : String :=
  ((content.extract? s).bind decode?).getD ""

end Bytes

end SuiteReport
