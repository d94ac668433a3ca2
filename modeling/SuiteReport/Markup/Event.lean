import SuiteReport.Markup.Attribute
/-!
# Markup as events

A document is read as the sequence of its tags, texts and CDATA sections. Reading stops at the first fault,
and the events before it still count. Comments, processing instructions and document types are passed over,
but they separate the texts around them.

A text reaches from one piece of markup to the next. White space at its ends is dropped before references
are expanded, and a text that is empty then is no event. Elements that are still open at the end of the
document are no fault.

## Main definitions

* `Event.scan`: the events of a document, as far as its markup is well formed by itself.
* `Event.nest`: the events up to the first end tag that does not match.
* `Reading.ofString`: both together, after an optional byte order mark.
-/

namespace SuiteReport.Markup

/-- A start tag or an empty-element tag. -/
structure Tag where
  /-- The name, with its namespace part. -/
  name : List Char
  /-- What stands between the name and the end of the tag. -/
  attributes : List Char
deriving DecidableEq, Repr

/-- A name without its namespace part, which reaches to the first colon. -/
def localPart (name : List Char) : List Char :=
  if name.contains ':' then (name.dropWhile (· != ':')).drop 1 else name

/-- The name of a tag without its namespace part. -/
def Tag.localName (t : Tag) : String := String.ofList (localPart t.name)

/-- One piece of a document. -/
inductive Event where
  /-- A start tag. -/
  | opened (tag : Tag)
  /-- An empty-element tag. -/
  | empty (tag : Tag)
  /-- An end tag with its name. -/
  | closed (name : List Char)
  /-- A text, trimmed, in which references are not expanded. -/
  | text (raw : List Char)
  /-- The content of a CDATA section. -/
  | cdata (content : List Char)
  /-- A comment, a processing instruction, a declaration or a document type. -/
  | other
deriving DecidableEq, Repr

/-- Why reading stopped before the end of a document. -/
inductive Fault where
  /-- A tag, a comment or another piece of markup does not end, or is none of the known kinds. -/
  | brokenMarkup
  /-- An end tag stands where no element is open. -/
  | unexpectedEndTag
  /-- An end tag names another element than the innermost open one. -/
  | mismatchedEndTag
  /-- An attribute that was asked for could not be read. -/
  | brokenAttribute (fault : AttributeFault)
  /-- A text that was asked for holds an ampersand that begins no known reference. -/
  | unknownReference
deriving DecidableEq, Repr

/-- The events of a document and the fault that ended them, if one did. -/
structure Reading where
  /-- The events before the fault, or all of them. -/
  events : List Event
  /-- The fault that stopped the reading. -/
  fault : Option Fault
deriving Repr

namespace Event

/-! ### Pieces of markup -/

/-- The characters before the first occurrence of `mark`, and those after it. -/
def cut? (mark : List Char) : List Char → Option (List Char × List Char)
  | [] => none
  | c :: rest =>
    if mark.isPrefixOf (c :: rest) then
      some ([], (c :: rest).drop mark.length)
    else
      (cut? mark rest).map fun (before, after) => (c :: before, after)

/-- The quote that is open after the character `c` of a tag, when `quote` was open before it. -/
def quoteAfter (quote : Option Char) (c : Char) : Option Char :=
  match quote with
  | none => if c = '"' ∨ c = '\x27' then some c else none
  | some q => if c = q then none else some q

/-- The content of a tag up to the `>` that ends it, and what follows. A `>` inside quotes ends nothing;
`quote` is the quote that is open. -/
def cutTag? (quote : Option Char) : List Char → Option (List Char × List Char)
  | [] => none
  | c :: rest =>
    if quote = none ∧ c = '>' then
      some ([], rest)
    else
      (cutTag? (quoteAfter quote c) rest).map fun (before, after) => (c :: before, after)

/-- The number of open pieces of markup after the character `c`, when `depth` were open before it. -/
def depthAfter (depth : Nat) (c : Char) : Nat :=
  if c = '<' then depth + 1 else if c = '>' then depth - 1 else depth

/-- The content of a document type up to the `>` that ends it, and what follows, when `depth` pieces of
markup inside it are open. -/
def cutDoctype? (depth : Nat) : List Char → Option (List Char × List Char)
  | [] => none
  | c :: rest =>
    if depth = 0 ∧ c = '>' then
      some ([], rest)
    else
      (cutDoctype? (depthAfter depth c) rest).map fun (before, after) => (c :: before, after)

/-- The piece of markup that begins after a `!`. -/
def declaration? (s : List Char) : Option (Event × List Char) :=
  if "--".toList.isPrefixOf s then
    (cut? "-->".toList (s.drop 2)).map fun (_, rest) => (.other, rest)
  else if "[CDATA[".toList.isPrefixOf s then
    (cut? "]]>".toList (s.drop 7)).map fun (content, rest) => (.cdata content, rest)
  else if (s.take 7).map Char.toLower = "doctype".toList then
    -- a document type has to have a name
    match cutDoctype? 0 (s.drop 7) with
    | some (content, rest) => if content.all isSpace then none else some (.other, rest)
    | none => none
  else
    none

/-- The piece of markup that begins after a `?`: up to `?>`, which cannot share its question mark with the
beginning. -/
def instruction? (s : List Char) : Option (Event × List Char) :=
  if s.head? = some '>' then none
  else (cut? "?>".toList s).map fun (_, rest) => (.other, rest)

/-- The tag with the given content: its name reaches to the first white space. -/
def Tag.ofContent (content : List Char) : Tag :=
  ⟨content.takeWhile (! isSpace ·), content.dropWhile (! isSpace ·)⟩

/-- The piece of markup that begins after a `<`, and what follows it. -/
def markup? (s : List Char) : Option (Event × List Char) :=
  match s with
  | [] => none
  | '!' :: s => declaration? s
  | '?' :: s => instruction? s
  | '/' :: s => (cutTag? none s).map fun (name, rest) => (.closed (dropTrailing name), rest)
  | s =>
    (cutTag? none s).map fun (content, rest) =>
      if content.getLast? = some '/' then
        (.empty (Tag.ofContent content.dropLast), rest)
      else
        (.opened (Tag.ofContent content), rest)
where
  /-- White space may stand after the name of an end tag. White space alone is a name of its own. -/
  dropTrailing (name : List Char) : List Char :=
    if name.all isSpace then name else (name.reverse.dropWhile isSpace).reverse

/-! ### What is left after a piece of markup -/

theorem length_le_of_cut? {mark s before rest : List Char} (h : cut? mark s = some (before, rest)) :
    rest.length ≤ s.length := by
  induction s generalizing before with
  | nil => cases h
  | cons c s ih =>
    unfold cut? at h
    split at h
    · cases h
      simp
    · simp only [Option.map_eq_some_iff, Prod.exists, Prod.mk.injEq] at h
      obtain ⟨before', rest', h, -, rfl⟩ := h
      have := ih h
      simp only [List.length_cons]
      omega

theorem length_le_of_cutTag? {quote : Option Char} {s before rest : List Char}
    (h : cutTag? quote s = some (before, rest)) : rest.length ≤ s.length := by
  induction s generalizing quote before with
  | nil => cases h
  | cons c s ih =>
    unfold cutTag? at h
    split at h
    · cases h
      simp
    · simp only [Option.map_eq_some_iff, Prod.exists, Prod.mk.injEq] at h
      obtain ⟨before', rest', h, -, rfl⟩ := h
      have := ih h
      simp only [List.length_cons]
      omega

theorem length_le_of_cutDoctype? {depth : Nat} {s before rest : List Char}
    (h : cutDoctype? depth s = some (before, rest)) : rest.length ≤ s.length := by
  induction s generalizing depth before with
  | nil => cases h
  | cons c s ih =>
    unfold cutDoctype? at h
    split at h
    · cases h
      simp
    · simp only [Option.map_eq_some_iff, Prod.exists, Prod.mk.injEq] at h
      obtain ⟨before', rest', h, -, rfl⟩ := h
      have := ih h
      simp only [List.length_cons]
      omega

theorem length_le_of_declaration? {s rest : List Char} {e : Event}
    (h : declaration? s = some (e, rest)) : rest.length ≤ s.length := by
  unfold declaration? at h
  split at h
  · simp only [Option.map_eq_some_iff, Prod.exists, Prod.mk.injEq] at h
    obtain ⟨before, rest', h, -, rfl⟩ := h
    have := length_le_of_cut? h
    simp only [List.length_drop] at this
    omega
  split at h
  · simp only [Option.map_eq_some_iff, Prod.exists, Prod.mk.injEq] at h
    obtain ⟨before, rest', h, -, rfl⟩ := h
    have := length_le_of_cut? h
    simp only [List.length_drop] at this
    omega
  split at h
  · split at h
    · rename_i h'
      split at h
      · cases h
      · cases h
        have := length_le_of_cutDoctype? h'
        simp only [List.length_drop] at this
        omega
    · cases h
  · cases h

theorem length_le_of_instruction? {s rest : List Char} {e : Event}
    (h : instruction? s = some (e, rest)) : rest.length ≤ s.length := by
  unfold instruction? at h
  split at h
  · cases h
  · simp only [Option.map_eq_some_iff, Prod.exists, Prod.mk.injEq] at h
    obtain ⟨before, rest', h, -, rfl⟩ := h
    exact length_le_of_cut? h

theorem length_le_of_markup? {s rest : List Char} {e : Event} (h : markup? s = some (e, rest)) :
    rest.length ≤ s.length := by
  unfold markup? at h
  split at h
  · cases h
  · have := length_le_of_declaration? h
    simp only [List.length_cons]
    omega
  · have := length_le_of_instruction? h
    simp only [List.length_cons]
    omega
  · simp only [Option.map_eq_some_iff, Prod.exists, Prod.mk.injEq] at h
    obtain ⟨before, rest', h, -, rfl⟩ := h
    have := length_le_of_cutTag? h
    simp only [List.length_cons]
    omega
  · simp only [Option.map_eq_some_iff, Prod.exists] at h
    obtain ⟨before, rest', h, h'⟩ := h
    have := length_le_of_cutTag? h
    split at h'
    · cases h'
      exact this
    · cases h'
      exact this

/-! ### Documents -/

/-- The event of the text between two pieces of markup, if something is left of it after trimming. -/
def ofText (s : List Char) : List Event :=
  match ((s.dropWhile isSpace).reverse.dropWhile isSpace).reverse with
  | [] => []
  | raw => [.text raw]

/-- The events of a document up to the first piece of markup that is broken. -/
def scan (s : List Char) : Reading :=
  let before := ofText (s.takeWhile (· != '<'))
  match _hs : s.dropWhile (· != '<') with
  | [] => ⟨before, none⟩
  | _ :: body =>
    match _hb : markup? body with
    | none => ⟨before, some .brokenMarkup⟩
    | some (e, rest) =>
      let after := scan rest
      ⟨before ++ e :: after.events, after.fault⟩
termination_by s.length
decreasing_by
  have markup : rest.length ≤ body.length := length_le_of_markup? (by assumption)
  have text : (s.dropWhile (· != '<')).length ≤ s.length := (List.dropWhile_suffix _).length_le
  rw [_hs, List.length_cons] at text
  omega

/-- The events up to the first end tag that does not match, when the elements in `openNames` are open,
innermost first. -/
def nest (openNames : List (List Char)) : List Event → Reading
  | [] => ⟨[], none⟩
  | .opened tag :: rest =>
    let after := nest (tag.name :: openNames) rest
    ⟨.opened tag :: after.events, after.fault⟩
  | .closed name :: rest =>
    match openNames with
    | [] => ⟨[], some .unexpectedEndTag⟩
    | expected :: openNames =>
      if name = expected then
        let after := nest openNames rest
        ⟨.closed name :: after.events, after.fault⟩
      else
        ⟨[], some .mismatchedEndTag⟩
  | e :: rest =>
    let after := nest openNames rest
    ⟨e :: after.events, after.fault⟩

end Event

/-- The mark that may stand before a document. -/
def byteOrderMark : Char := '\uFEFF'

/-- The events of a document. Of two faults the first counts. -/
def Reading.ofString (document : String) : Reading :=
  let s := match document.toList with
    | c :: rest => if c = byteOrderMark then rest else c :: rest
    | [] => []
  let scanned := Event.scan s
  let nested := Event.nest [] scanned.events
  ⟨nested.events, nested.fault.or scanned.fault⟩

end SuiteReport.Markup
