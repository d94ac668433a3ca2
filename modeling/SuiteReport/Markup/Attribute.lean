import SuiteReport.Markup.Reference
/-!
# Attributes of a tag

The text between the name of a tag and its end is read attribute by attribute, and only as far as the
attribute that is asked for: what stands to the right of it may be anything. White space may surround the
equals sign and need not separate attributes.

## Main definitions

* `Attribute.next?`: the first attribute of a text and what follows it.
* `Attribute.find?`: the value of the first attribute of a name, its references expanded.
-/

namespace SuiteReport.Markup

/-- White space of markup: blank, tab, line feed and carriage return. -/
def isSpace (c : Char) : Bool := c == ' ' || c == '\t' || c == '\n' || c == '\r'

/-- An attribute as it is written, its value without the quotes. -/
structure Attribute where
  /-- The name, with the part before a colon if there is one. -/
  name : List Char
  /-- The value, in which references are not expanded. -/
  value : List Char
deriving DecidableEq, Repr

/-- Why an attribute could not be read. -/
inductive AttributeFault where
  /-- The name is empty. -/
  | emptyName
  /-- An earlier attribute of the tag has the same name. -/
  | duplicateName
  /-- No equals sign follows the name. -/
  | missingEquals
  /-- The value is missing or does not begin with a quote. -/
  | missingQuote
  /-- The value does not end. -/
  | unterminatedValue
  /-- The value holds an ampersand that begins no known reference. -/
  | unknownReference
deriving DecidableEq, Repr

namespace Attribute

/-- The characters before the first `quote`, and those after it. -/
def untilQuote? (quote : Char) : List Char → Option (List Char × List Char)
  | [] => none
  | c :: rest =>
    if c = quote then
      some ([], rest)
    else
      (untilQuote? quote rest).map fun (value, after) => (c :: value, after)

theorem length_lt_of_untilQuote? {quote : Char} {s value rest : List Char}
    (h : untilQuote? quote s = some (value, rest)) : rest.length < s.length := by
  induction s generalizing value with
  | nil => cases h
  | cons c s ih =>
    unfold untilQuote? at h
    split at h
    · cases h
      simp
    · simp only [Option.map_eq_some_iff, Prod.exists, Prod.mk.injEq] at h
      obtain ⟨value', rest', h, -, rfl⟩ := h
      have := ih h
      simp only [List.length_cons]
      omega

/-- The value after an equals sign, and what follows its closing quote. -/
def value? (s : List Char) : Except AttributeFault (List Char × List Char) :=
  match s.dropWhile isSpace with
  | '"' :: rest => (untilQuote? '"' rest).elim (.error .unterminatedValue) .ok
  | '\x27' :: rest => (untilQuote? '\x27' rest).elim (.error .unterminatedValue) .ok
  | _ => .error .missingQuote

/-- Whether the character ends the name of an attribute. -/
def endsName (c : Char) : Bool := c == '=' || isSpace c

/-- The first attribute and what follows it, or `none` if there is only white space. The names in `seen` are
taken by earlier attributes. -/
def next? (seen : List (List Char)) (s : List Char) :
    Except AttributeFault (Option (Attribute × List Char)) :=
  match s.dropWhile isSpace with
  | [] => .ok none
  | c :: rest =>
    let name := c :: rest.takeWhile (! endsName ·)
    if c = '=' then
      .error .emptyName
    else
      match (rest.dropWhile (! endsName ·)).dropWhile isSpace with
      | '=' :: later =>
        if seen.contains name then
          .error .duplicateName
        else
          match value? later with
          | .error fault => .error fault
          | .ok (value, after) => .ok (some (⟨name, value⟩, after))
      | _ => .error .missingEquals

theorem length_lt_of_value? {s value rest : List Char} (h : value? s = .ok (value, rest)) :
    rest.length < s.length := by
  have hs : (s.dropWhile isSpace).length ≤ s.length := (List.dropWhile_suffix _).length_le
  unfold value? at h
  split at h
  · rename_i tail hd
    cases hu : untilQuote? '"' tail with
    | none => simp [hu] at h
    | some p =>
      simp only [hu, Option.elim_some, Except.ok.injEq] at h
      subst h
      have := length_lt_of_untilQuote? hu
      rw [hd, List.length_cons] at hs
      omega
  · rename_i tail hd
    cases hu : untilQuote? '\x27' tail with
    | none => simp [hu] at h
    | some p =>
      simp only [hu, Option.elim_some, Except.ok.injEq] at h
      subst h
      have := length_lt_of_untilQuote? hu
      rw [hd, List.length_cons] at hs
      omega
  · cases h

theorem length_lt_of_next? {seen : List (List Char)} {s rest : List Char} {a : Attribute}
    (h : next? seen s = .ok (some (a, rest))) : rest.length < s.length := by
  have hs : (s.dropWhile isSpace).length ≤ s.length := (List.dropWhile_suffix _).length_le
  unfold next? at h
  split at h
  · cases h
  rename_i c tail hd
  rw [hd, List.length_cons] at hs
  have htail : ((tail.dropWhile (! endsName ·)).dropWhile isSpace).length ≤ tail.length :=
    Nat.le_trans (List.dropWhile_suffix _).length_le (List.dropWhile_suffix _).length_le
  dsimp only at h
  split at h
  · cases h
  split at h
  · rename_i later heq
    rw [heq, List.length_cons] at htail
    split at h
    · cases h
    split at h
    · cases h
    · rename_i hv
      cases h
      have := length_lt_of_value? hv
      omega
  · cases h

/-- The raw value of the first attribute with the given name, where the names in `seen` are taken by earlier
attributes. The attributes before it have to be well formed; if there is none, all attributes have to be. -/
def findRaw? (name : List Char) (seen : List (List Char)) (s : List Char) :
    Except AttributeFault (Option (List Char)) :=
  match _h : next? seen s with
  | .error fault => .error fault
  | .ok none => .ok none
  | .ok (some (a, rest)) =>
    if a.name = name then .ok (some a.value) else findRaw? name (a.name :: seen) rest
termination_by s.length
decreasing_by exact length_lt_of_next? (by assumption)

/-- The value of the first attribute with the given name, its references expanded, or `none` if the tag has
no such attribute. -/
def find? (attributes : List Char) (name : String) : Except AttributeFault (Option String) := do
  match ← findRaw? name.toList [] attributes with
  | none => return none
  | some raw =>
    match expand? raw with
    | none => throw .unknownReference
    | some value => return some (String.ofList value)

end Attribute

end SuiteReport.Markup
