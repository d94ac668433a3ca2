import SuiteReport.Text.Bytes
/-!
# String literals

A raw literal stands between back quotes and means its body, carriage returns left out. An interpreted
literal stands between double quotes, and its escapes are decoded. Escapes of single bytes may stand in any
number; whatever they spell has to be UTF-8 before the next character or escape of another kind.

## Main definitions

* `StringLiteral.decode?`: the text that a literal means, or `none` if it is malformed.
-/

namespace SuiteReport.Go.StringLiteral

/-- The quote of raw literals. -/
def backQuote : Char := '\x60'

/-- The text between two occurrences of `quote`, if it stands between them. -/
def between? (quote : Char) (s : List Char) : Option (List Char) :=
  match s with
  | [] => none
  | c :: rest =>
    if c = quote ∧ rest.getLast? = some quote then some rest.dropLast else none

/-- The value of a hexadecimal digit. -/
def hexDigit? (c : Char) : Option Nat :=
  if '0' ≤ c ∧ c ≤ '9' then some (c.toNat - '0'.toNat)
  else if 'a' ≤ c ∧ c ≤ 'f' then some (c.toNat - 'a'.toNat + 10)
  else if 'A' ≤ c ∧ c ≤ 'F' then some (c.toNat - 'A'.toNat + 10)
  else none

/-- The value of an octal digit. -/
def octalDigit? (c : Char) : Option Nat :=
  if '0' ≤ c ∧ c ≤ '7' then some (c.toNat - '0'.toNat) else none

/-- The number denoted by the first `count` characters, all of which have to be digits, and the rest. -/
def digits? (digit? : Char → Option Nat) (radix : Nat) (value : Nat) :
    Nat → List Char → Option (Nat × List Char)
  | 0, s => some (value, s)
  | _ + 1, [] => none
  | count + 1, c :: s => do
    let d ← digit? c
    digits? digit? radix (value * radix + d) count s

/-- The character that a letter after a backslash stands for. -/
def simpleEscape? : Char → Option Char
  | 'a' => some '\x07'
  | 'b' => some '\x08'
  | 'f' => some '\x0C'
  | 'n' => some '\n'
  | 'r' => some '\r'
  | 't' => some '\t'
  | 'v' => some '\x0B'
  | '\\' => some '\\'
  | '"' => some '"'
  | _ => none

/-- What one item of an interpreted literal contributes. -/
inductive Item where
  /-- A character. -/
  | char (c : Char)
  /-- A single byte. -/
  | byte (b : UInt8)
deriving DecidableEq, Repr

/-- The scalar value with the given number. -/
def scalarItem? (n : Nat) : Option Item :=
  if n.isValidChar then some (.char (Char.ofNat n)) else none

/-- The byte with the given value. -/
def byteItem? (n : Nat) : Option Item :=
  if n ≤ 0xFF then some (.byte (UInt8.ofNat n)) else none

/-- The item written after a backslash, and what follows it. -/
def escape? : List Char → Option (Item × List Char)
  | [] => none
  | 'x' :: s => do
    let (n, s) ← digits? hexDigit? 16 0 2 s
    return (← byteItem? n, s)
  | 'u' :: s => do
    let (n, s) ← digits? hexDigit? 16 0 4 s
    return (← scalarItem? n, s)
  | 'U' :: s => do
    let (n, s) ← digits? hexDigit? 16 0 8 s
    return (← scalarItem? n, s)
  | c :: s =>
    match octalDigit? c with
    | some _ => do
      let (n, s) ← digits? octalDigit? 8 0 3 (c :: s)
      return (← byteItem? n, s)
    | none => (simpleEscape? c).map fun c => (.char c, s)

theorem length_le_of_digits? {digit? : Char → Option Nat} {radix value count n : Nat}
    {s rest : List Char} (h : digits? digit? radix value count s = some (n, rest)) :
    rest.length ≤ s.length := by
  induction count generalizing value s with
  | zero =>
    cases h
    exact Nat.le_refl _
  | succ count ih =>
    cases s with
    | nil => cases h
    | cons c s =>
      simp only [digits?, Option.bind_eq_bind, Option.bind_eq_some_iff] at h
      obtain ⟨d, -, h⟩ := h
      have := ih h
      simp only [List.length_cons]
      omega

theorem length_le_of_escape? {s rest : List Char} {item : Item}
    (h : escape? s = some (item, rest)) : rest.length ≤ s.length := by
  unfold escape? at h
  split at h
  · cases h
  all_goals try
    simp only [Option.bind_eq_bind, Option.bind_eq_some_iff, Prod.exists, pure, Option.some.injEq,
      Prod.mk.injEq] at h
    obtain ⟨n, s', h, item', -, -, rfl⟩ := h
    have := length_le_of_digits? h
    simp only [List.length_cons]
    omega
  split at h
  · simp only [Option.bind_eq_bind, Option.bind_eq_some_iff, Prod.exists, pure, Option.some.injEq,
      Prod.mk.injEq] at h
    obtain ⟨n, s', h, item', -, -, rfl⟩ := h
    exact length_le_of_digits? h
  · simp only [Option.map_eq_some_iff, Prod.mk.injEq] at h
    obtain ⟨c', -, -, rfl⟩ := h
    simp

/-- The items of the body of an interpreted literal. -/
def items? (s : List Char) : Option (List Item) :=
  match s with
  | [] => some []
  | '\n' :: _ | '"' :: _ => none
  | '\\' :: rest =>
    match _h : escape? rest with
    | none => none
    | some (item, rest) => (items? rest).map (item :: ·)
  | c :: rest => (items? rest).map (.char c :: ·)
termination_by s.length
decreasing_by
  · have := length_le_of_escape? (by assumption)
    simp only [List.length_cons]
    omega
  · simp

/-- The characters of a list of items, when `pending` are the bytes just before it, in reverse order. Each
run of bytes between characters has to be UTF-8. -/
def resolve? (pending : Bytes) : List Item → Option (List Char)
  | [] => Bytes.decodeChars? pending.reverse
  | .byte b :: rest => resolve? (b :: pending) rest
  | .char c :: rest => do
    let before ← Bytes.decodeChars? pending.reverse
    let tail ← resolve? [] rest
    return before ++ c :: tail

/-- The text that an interpreted literal with the given body means. -/
def interpreted? (body : List Char) : Option (List Char) := (items? body).bind (resolve? [])

/-- The text that a literal means, as characters. -/
def decodeChars? (literal : List Char) : Option (List Char) :=
  match between? backQuote literal with
  | some body => some (body.filter (· != '\r'))
  | none => (between? '"' literal).bind interpreted?

/-- The text that a literal means, or `none` if it is malformed. -/
def decode? (literal : String) : Option String := (decodeChars? literal.toList).map String.ofList

end SuiteReport.Go.StringLiteral
