/-!
# References in markup

Text and attribute values may refer to a character by a predefined name or by its number. `expand?` puts the
characters in place of their references.
-/

namespace SuiteReport.Markup

/-- The characters with predefined names, under their names. -/
def predefined : List (String × Char) :=
  [("lt", '<'), ("gt", '>'), ("amp", '&'), ("apos", '\x27'), ("quot", '"')]

/-- The value of a digit, with letters from ten on, or `none` if the character is no digit in the radix. -/
def digit? (radix : Nat) (c : Char) : Option Nat :=
  let value? :=
    if '0' ≤ c ∧ c ≤ '9' then some (c.toNat - '0'.toNat)
    else if 'a' ≤ c ∧ c ≤ 'f' then some (c.toNat - 'a'.toNat + 10)
    else if 'A' ≤ c ∧ c ≤ 'F' then some (c.toNat - 'A'.toNat + 10)
    else none
  value?.filter (· < radix)

/-- The number that the digits denote, most significant first; there has to be a digit. -/
def number? (radix : Nat) : List Char → Option Nat
  | [] => none
  | digits => digits.foldlM (fun n c => (digit? radix c).map (n * radix + ·)) 0

/-- The character with the given number. Zero, surrogates and numbers beyond the last code point name no
character. -/
def numbered? (n : Nat) : Option Char :=
  if n ≠ 0 ∧ n.isValidChar then some (Char.ofNat n) else none

/-- The character that the text between `&` and `;` refers to. -/
def referent? : List Char → Option Char
  | '#' :: 'x' :: digits => (number? 16 digits).bind numbered?
  | '#' :: digits => (number? 10 digits).bind numbered?
  | name => predefined.lookup (String.ofList name)

/-- Splits what follows an `&` into the reference up to `;` and the rest. A second `&` must not come
first. -/
def reference? : List Char → Option (List Char × List Char)
  | [] => none
  | ';' :: rest => some ([], rest)
  | '&' :: _ => none
  | c :: rest => (reference? rest).map fun (name, after) => (c :: name, after)

theorem length_le_of_reference? {s name rest : List Char} (h : reference? s = some (name, rest)) :
    rest.length < s.length := by
  fun_induction reference? s generalizing name with
  | case1 => cases h
  | case2 => cases h; simp
  | case3 => cases h
  | case4 c s _ _ ih =>
    simp only [Option.map_eq_some_iff, Prod.exists, Prod.mk.injEq] at h
    obtain ⟨name', rest', h, -, rfl⟩ := h
    have := ih h
    simp only [List.length_cons]
    omega

/-- The text with each reference replaced by its character, or `none` if an `&` begins no reference or the
reference names no character. -/
def expand? (s : List Char) : Option (List Char) :=
  match s with
  | [] => some []
  | '&' :: rest =>
    match _h : reference? rest with
    | none => none
    | some (name, rest) => do
      let c ← referent? name
      let tail ← expand? rest
      return c :: tail
  | c :: rest => (expand? rest).map (c :: ·)
termination_by s.length
decreasing_by
  · have := length_le_of_reference? (by assumption)
    simp only [List.length_cons]
    omega
  · simp

end SuiteReport.Markup
