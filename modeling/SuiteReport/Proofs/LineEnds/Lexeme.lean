import SuiteReport.Proofs.LineEnds.Extent
/-!
# Lexemes with carriage returns

Which kind of thing begins at a place is told by the characters there, and of the literals the longest counts. Carriage
returns put in before line feeds change neither, since the shorter of two stretches stays shorter. So the same thing
begins at a place as before, with the carriage returns in it, unless it is a text between quotes that goes over a line
end: then nothing begins there any more.

## Main definitions

* `Extent.StartsIn`: stretches that begin with a character of a class.
* `Lexeme.isQuoted`: the lexemes that have to be on one line.

## Main results

* `Lexeme.literal?_returned`: the longest literal at a place.
* `Lexeme.next?_returned`: what begins at a place.
-/

namespace SuiteReport.Go

namespace Extent

variable {gs : List Glyph} {g : Glyph} {e : Extent} {p : Char → Bool}

/-! ### What a stretch begins with -/

/-- Whether every stretch begins with a character of a class. -/
def StartsIn (p : Char → Bool) (e : Extent) : Prop := ∀ gs n, e gs = some n → ∃ g ∈ gs.head?, g.is p = true

theorem StartsIn.one : StartsIn p (one p) := by
  intro gs n h
  cases gs with
  | nil => cases h
  | cons g gs => exact ⟨g, rfl, (Option.ite_none_right_eq_some.1 h).1⟩

theorem StartsIn.mono {q : Char → Bool} (h : StartsIn p e) (hpq : ∀ c, p c = true → q c = true) : StartsIn q e :=
  fun gs n hn =>
    let ⟨g, hg, hp⟩ := h gs n hn
    ⟨g, hg, is_of_is hp hpq⟩

theorem StartsIn.followedBy (he : StartsIn p e) (f : Extent) : StartsIn p (e.followedBy f) := by
  intro gs n h
  obtain ⟨m, hm, -⟩ := Option.bind_eq_some_iff.1 h
  exact he gs m hm

theorem StartsIn.longest {es : List Extent} (h : ∀ e ∈ es, StartsIn p e) : StartsIn p (longest es) := by
  intro gs n hn
  obtain ⟨e, he, hn⟩ := exists_of_longest hn
  exact h e he gs n hn

theorem StartsIn.digits : StartsIn p (digits p) := by
  intro gs n h
  obtain ⟨hfirst, -⟩ := Option.ite_none_right_eq_some.1 h
  obtain ⟨g, hg, hp⟩ := (Option.any_eq_true _ _).1 hfirst
  exact ⟨g, hg, hp⟩

theorem StartsIn.character (c : Char) (hc : p c = true) : StartsIn p (character c) :=
  StartsIn.one.mono fun d hd => by rwa [beq_iff_eq.1 hd]

/-- What begins with none of the characters that a stretch begins with begins with no stretch. -/
theorem StartsIn.eq_none (he : StartsIn p e) (hg : g.is p = false) (gs : List Glyph) : e (g :: gs) = none := by
  cases h : e (g :: gs) with
  | none => rfl
  | some n =>
      obtain ⟨g', hg', hp⟩ := he _ _ h
      rw [← Option.some.inj hg', hg] at hp
      cases hp

/-- The characters that numbers begin with. -/
def isNumeric (c : Char) : Bool := isDecimal c || c == '.'

theorem StartsIn.integer : StartsIn isNumeric integer := by
  have zero : StartsIn isNumeric (Extent.character '0') := .character '0' (by decide)
  refine .longest ?_
  simp only [List.forall_mem_cons, List.not_mem_nil, false_imp_iff, implies_true, and_true]
  refine ⟨zero.followedBy _, zero, .followedBy (StartsIn.one.mono ?_) _, zero.followedBy _, zero.followedBy _⟩
  intro c hc
  rw [Bool.and_eq_true] at hc
  rw [isNumeric, hc.1, Bool.true_or]

theorem StartsIn.decimals : StartsIn isNumeric (Extent.digits isDecimal) :=
  StartsIn.digits.mono fun c hc => by rw [isNumeric, hc, Bool.true_or]

theorem StartsIn.float : StartsIn isNumeric float := by
  refine .longest ?_
  simp only [List.forall_mem_cons, List.not_mem_nil, false_imp_iff, implies_true, and_true]
  refine ⟨.longest ?_, .followedBy (.character '0' (by decide)) _⟩
  simp only [List.forall_mem_cons, List.not_mem_nil, false_imp_iff, implies_true, and_true]
  exact ⟨decimals.followedBy _, decimals.followedBy _, .followedBy (.character '.' (by decide)) _⟩

theorem StartsIn.imaginary : StartsIn isNumeric imaginary := by
  refine .longest ?_
  simp only [List.forall_mem_cons, List.not_mem_nil, false_imp_iff, implies_true, and_true]
  exact ⟨decimals.followedBy _, integer.followedBy _, float.followedBy _⟩

/-- A glyph that is not the character is not in its class. -/
theorem is_eq_false_of_ne {q : Char} (hq : g.char? ≠ some q) : g.is (· == q) = false := by
  cases hc : g.char? with
  | none => rw [Glyph.is, hc]; rfl
  | some c =>
      rw [Glyph.is, hc, Option.any_some, beq_eq_false_iff_ne]
      rintro rfl
      exact hq hc

/-! ### Stretches on one line -/

/-- A stretch that line ends break is gone if there is one in it, and is as it was otherwise. -/
theorem Breaks.returned_of_some (he : Breaks e) (hends : EndsIn isSolid e) {n : Nat} (hn : e gs = some n) :
    e (Glyph.returned gs) = if (gs.take n).any Glyph.isFeed then none else some (grown gs n) := by
  obtain ⟨m, last, rfl, hm, -⟩ := hends _ _ hn
  have hlength := (List.getElem?_eq_some_iff.1 hm).1
  rw [he, hn, Option.filter_some, List.any_eq_not_all_not]
  cases hall : (gs.take (m + 1)).all (!·.isFeed) with
  | true =>
      rw [List.all_eq_true] at hall
      rw [grown_of_oneLine hlength fun g hg => by simpa using hall g hg]
      rfl
  | false => rfl

end Extent

namespace Lexeme

open Extent

variable {g : Glyph} {gs : List Glyph} {lexeme : Lexeme} {count : Nat}

/-- Whether the lexeme is a text between quotes that has to be on one line. -/
def isQuoted : Lexeme → Bool
  | .token (.literal .interpretedString) | .token (.literal .rune) => true
  | _ => false

/-- The longest literal of some kinds. -/
def longestOf (entries : List (LiteralClass × Extent)) (gs : List Glyph) : Option (Lexeme × Nat) :=
  entries.foldr (fun entry later =>
    match entry.2 gs, later with
    | none, _ => later
    | some n, none => some (.token (.literal entry.1), n)
    | some n, some found => if found.2 ≤ n then some (.token (.literal entry.1), n) else some found) none

theorem longestOf_cons (entry : LiteralClass × Extent) (entries : List (LiteralClass × Extent)) (gs : List Glyph) :
    longestOf (entry :: entries) gs =
      match entry.2 gs, longestOf entries gs with
      | none, later => later
      | some n, none => some (.token (.literal entry.1), n)
      | some n, some found => if found.2 ≤ n then some (.token (.literal entry.1), n) else some found := by
  rw [longestOf, List.foldr_cons, ← longestOf]
  cases entry.2 gs <;> cases longestOf entries gs <;> rfl

/-- More glyphs become more, and fewer become fewer. -/
theorem grown_le_grown_iff {m n : Nat} (hm : m ≤ gs.length) (hn : n ≤ gs.length) :
    grown gs m ≤ grown gs n ↔ m ≤ n := by
  rcases Nat.lt_trichotomy m n with hlt | rfl | hlt
  · exact iff_of_true (Nat.le_of_lt (grown_lt hlt hn)) (Nat.le_of_lt hlt)
  · exact iff_of_true (Nat.le_refl _) (Nat.le_refl _)
  · exact iff_of_false (Nat.not_le.2 (grown_lt hlt hm)) (Nat.not_le.2 hlt)

/-- The longest literal grows if all literals do, since the shorter of two stays shorter. It is within the glyphs. -/
theorem longestOf_returned (entries : List (LiteralClass × Extent))
    (hgrow : ∀ entry ∈ entries, entry.2 (Glyph.returned gs) = (entry.2 gs).map (grown gs))
    (hlength : ∀ entry ∈ entries, ∀ n ∈ entry.2 gs, n ≤ gs.length) :
    longestOf entries (Glyph.returned gs) = (longestOf entries gs).map (fun found => (found.1, grown gs found.2)) ∧
      ∀ found ∈ longestOf entries gs, found.2 ≤ gs.length := by
  induction entries with
  | nil => exact ⟨rfl, by simp [longestOf]⟩
  | cons entry entries ih =>
      rw [List.forall_mem_cons] at hgrow hlength
      obtain ⟨hlater, hbound⟩ := ih hgrow.2 hlength.2
      rw [longestOf_cons, longestOf_cons, hlater, hgrow.1]
      cases hn : entry.2 gs with
      | none => exact ⟨rfl, hbound⟩
      | some n =>
          have hn := hlength.1 n hn
          cases hfound : longestOf entries gs with
          | none => exact ⟨rfl, by simpa using hn⟩
          | some found =>
              have hle := hbound found hfound
              simp only [Option.map_some, grown_le_grown_iff hle hn]
              split <;> simp [hle, hn]

/-- **The longest literal** grows, if the texts between quotes do. -/
theorem literal?_returned (gs : List Glyph)
    (hstring : interpretedString (Glyph.returned gs) = (interpretedString gs).map (grown gs))
    (hrune : rune (Glyph.returned gs) = (rune gs).map (grown gs)) :
    literal? (Glyph.returned gs) = (literal? gs).map fun found => (found.1, grown gs found.2) := by
  refine (longestOf_returned literals ?_ ?_).1
  · simp only [literals, List.forall_mem_cons, List.not_mem_nil, false_imp_iff, implies_true, and_true]
    exact ⟨hstring, Grows.rawString gs, hrune, Solid.imaginary.grows gs, Solid.float.grows gs, Solid.integer.grows gs⟩
  · intro entry hentry n hn
    obtain ⟨m, last, rfl, hm, -⟩ := endsIn_of_mem_literals hentry _ _ hn
    exact (List.getElem?_eq_some_iff.1 hm).1

/-- No word, no comment and no symbol begins with a quote. -/
theorem next?_of_quote {q : Char} (hq : q = '"' ∨ q = '\x27') (hg : g.char? = some q) (gs : List Glyph) :
    next? (g :: gs) = literal? (g :: gs) := by
  have is (p : Char → Bool) : g.is p = p q := by rw [Glyph.is, hg, Option.any_some]
  have blank : isBlank q = false := by rcases hq with rfl | rfl <;> decide
  have feed : (q == '\n') = false := by rcases hq with rfl | rfl <;> decide
  have slash : (q == '/') = false := by rcases hq with rfl | rfl <;> decide
  have start : Identifier.isStart q = false := by rcases hq with rfl | rfl <;> decide
  have symbols : ∀ entry ∈ Symbol.spellings, entry.1.head?.any (q == ·) = false := by
    rcases hq with rfl | rfl <;> decide +kernel
  have comment : Extent.comment (g :: gs) = none := by
    rw [comment_eq]
    cases gs <;> simp [is, slash]
  have word : word? (g :: gs) = none := by rw [word?, is, start]; rfl
  have symbol : symbol? (g :: gs) = none := by
    rw [symbol?, Option.map_eq_none_iff, List.find?_eq_none]
    intro entry hentry hbegins
    have hne := (of_mem_spellings hentry).1
    have hfirst := symbols entry hentry
    cases hspelling : entry.1 with
    | nil => exact hne hspelling
    | cons c cs =>
        rw [hspelling] at hbegins hfirst
        rw [begins, Bool.and_eq_true, is] at hbegins
        rw [List.head?_cons, Option.any_some, hbegins.1] at hfirst
        cases hfirst
  rw [next?_cons, is, blank, is, feed, comment, word, symbol]
  cases literal? (g :: gs) <;> rfl

/-- What begins with a double quote is a text between double quotes, or nothing. -/
theorem next?_doubleQuote (hg : g.char? = some '"') (gs : List Glyph) :
    next? (g :: gs) =
      (Extent.interpretedString (g :: gs)).map (Lexeme.token (.literal .interpretedString), ·) := by
  have none {e : Extent} {p : Char → Bool} (he : StartsIn p e) (hp : p '"' = false) : e (g :: gs) = none :=
    he.eq_none (by rw [Glyph.is, hg, Option.any_some, hp]) gs
  have raw : rawString (g :: gs) = Option.none :=
    none (.followedBy (.character (p := (· == '\x60')) _ rfl) _) (by decide)
  have character : rune (g :: gs) = Option.none :=
    none (.followedBy (.character (p := (· == '\x27')) _ rfl) _) (by decide)
  have imaginary := none StartsIn.imaginary (by decide)
  have float := none StartsIn.float (by decide)
  have integer := none StartsIn.integer (by decide)
  rw [next?_of_quote (.inl rfl) hg]
  simp only [literal?, literals, List.foldr_cons, List.foldr_nil, raw, character, imaginary, float, integer]
  cases Extent.interpretedString (g :: gs) <;> rfl

/-- What begins with a single quote is a character, or nothing. -/
theorem next?_singleQuote (hg : g.char? = some '\x27') (gs : List Glyph) :
    next? (g :: gs) = (Extent.rune (g :: gs)).map (Lexeme.token (.literal .rune), ·) := by
  have none {e : Extent} {p : Char → Bool} (he : StartsIn p e) (hp : p '\x27' = false) : e (g :: gs) = none :=
    he.eq_none (by rw [Glyph.is, hg, Option.any_some, hp]) gs
  have raw : rawString (g :: gs) = Option.none :=
    none (.followedBy (.character (p := (· == '\x60')) _ rfl) _) (by decide)
  have text : Extent.interpretedString (g :: gs) = Option.none :=
    none (.followedBy (.character (p := (· == '"')) _ rfl) _) (by decide)
  have imaginary := none StartsIn.imaginary (by decide)
  have float := none StartsIn.float (by decide)
  have integer := none StartsIn.integer (by decide)
  rw [next?_of_quote (.inr rfl) hg]
  simp only [literal?, literals, List.foldr_cons, List.foldr_nil, raw, text, imaginary, float, integer]
  cases Extent.rune (g :: gs) <;> rfl

/-- What a word or a symbol is does not depend on carriage returns. -/
theorem of_solid_returned {read : List Glyph → Option (Lexeme × Nat)}
    (hcongr : ∀ {line rest rest'}, Stops rest → Stops rest' → read (line ++ rest') = read (line ++ rest))
    (htaken : ∀ {gs found}, read gs = some found →
      0 < found.2 ∧ found.2 ≤ gs.length ∧ ∀ g ∈ gs.take found.2, g.is isSolid = true) (gs : List Glyph) :
    read (Glyph.returned gs) = (read gs).map fun found => (found.1, grown gs found.2) := by
  obtain ⟨line, rest, rfl, hline, hrest, hreturned, heq⟩ := exists_line gs
  rw [heq, hcongr hrest hreturned]
  cases hfound : read (line ++ rest) with
  | none => rfl
  | some found =>
      obtain ⟨-, hlength, hsolid⟩ := htaken hfound
      rw [Option.map_some, grown_of_oneLine hlength]
      intro g hg
      rw [← Bool.not_eq_true]
      intro hfeed
      have := hsolid g hg
      rw [not_isSolid_of_isFeed hfeed] at this
      cases this

/-- Where a quote begins, only a text between such quotes does, and it is gone if there is a line feed in it. -/
theorem next?_returned_of_quoted {cls : LiteralClass} {e : Extent} (hmem : (cls, e) ∈ literals) (he : Breaks e)
    (hquoted : isQuoted (.token (.literal cls)) = true)
    (hnext : ∀ gs, next? (g :: gs) = (e (g :: gs)).map (Lexeme.token (.literal cls), ·))
    (h : next? (g :: gs) = some (lexeme, count)) (hg : g.isFeed = false) :
    lexeme.isQuoted = true ∧ next? (Glyph.returned (g :: gs)) =
      if ((g :: gs).take count).any Glyph.isFeed then none else some (lexeme, grown (g :: gs) count) := by
  rw [hnext] at h
  obtain ⟨n, hn, heq⟩ := Option.map_eq_some_iff.1 h
  obtain ⟨rfl, rfl⟩ := Prod.mk.inj heq
  have hreturned := he.returned_of_some (endsIn_of_mem_literals hmem) hn
  rw [Glyph.returned_cons hg] at hreturned ⊢
  rw [hnext, hreturned]
  refine ⟨hquoted, ?_⟩
  cases ((g :: gs).take n).any Glyph.isFeed <;> rfl

/-- Where no text between quotes begins, no lexeme that has to be on one line does. -/
theorem isQuoted_eq_false_of_next? (hstring : Extent.interpretedString (g :: gs) = none)
    (hrune : Extent.rune (g :: gs) = none) (h : next? (g :: gs) = some (lexeme, count)) : lexeme.isQuoted = false := by
  rcases next?_forms h with ⟨-, rfl, -⟩ | ⟨-, rfl, -⟩ | ⟨rfl, -⟩ | ⟨cls, -, rfl, h | h | h⟩
  · rfl
  · rfl
  · rfl
  · obtain ⟨-, h⟩ := Option.ite_none_right_eq_some.1 h
    rw [← (Prod.mk.inj (Option.some.inj h)).1]
    rfl
  · obtain ⟨entry, hentry, hcls, hfound⟩ := exists_of_literal? h
    obtain rfl : cls = .literal entry.1 := by simpa using hcls
    simp only [literals, List.mem_cons, List.not_mem_nil, or_false] at hentry
    rcases hentry with rfl | rfl | rfl | rfl | rfl | rfl
    · cases hstring.symm.trans hfound
    · rfl
    · cases hrune.symm.trans hfound
    · rfl
    · rfl
    · rfl
  · obtain ⟨entry, -, h⟩ := Option.map_eq_some_iff.1 h
    rw [← (Prod.mk.inj h).1]
    rfl

/-- Where no comment begins, what is there is none. -/
theorem ne_comment_of_next? (hcomment : Extent.comment (g :: gs) = none)
    (h : next? (g :: gs) = some (lexeme, count)) : lexeme ≠ .comment := by
  rintro rfl
  rcases next?_forms h with ⟨-, h, -⟩ | ⟨-, h, -⟩ | ⟨-, h⟩ | ⟨_, -, h, -⟩
  · cases h
  · cases h
  · cases hcomment.symm.trans h
  · cases h

/-- Where no text between quotes begins, whatever there is grows. -/
theorem next?_returned_of_unquoted (hstring : Extent.interpretedString (g :: gs) = none)
    (hrune : Extent.rune (g :: gs) = none) (h : next? (g :: gs) = some (lexeme, count)) (hg : g.isFeed = false) :
    next? (Glyph.returned (g :: gs)) =
      some (lexeme, grown (g :: gs) count + if lexeme = .comment then returnBehind (g :: gs) count else 0) := by
  have one : grown (g :: gs) 1 = 1 := by rw [grown_cons hg, grown_zero]
  have literal := literal?_returned (g :: gs) (by rw [Breaks.interpretedString, hstring]; rfl)
    (by rw [Breaks.rune, hrune]; rfl)
  have noComment (hcomment : Extent.comment (g :: gs) = none) := ne_comment_of_next? hcomment h
  rw [next?_cons] at h
  rw [Glyph.returned_cons hg, next?_cons, ← Glyph.returned_cons hg, comment_returned,
    of_solid_returned word?_congr word?_taken, literal, of_solid_returned symbol?_congr symbol?_taken]
  split at h
  · rename_i hblank
    obtain ⟨rfl, rfl⟩ := Prod.mk.inj (Option.some.inj h)
    rw [if_pos hblank, one]
    rfl
  rename_i hblank
  rw [if_neg hblank]
  split at h
  · rename_i hfeed
    rw [Glyph.isFeed, hfeed] at hg
    cases hg
  rename_i hfeed
  rw [if_neg hfeed]
  cases hcomment : Extent.comment (g :: gs) with
  | some n =>
      rw [hcomment] at h
      obtain ⟨rfl, rfl⟩ := Prod.mk.inj (Option.some.inj h)
      rfl
  | none =>
      rw [hcomment, Option.map_none, Option.none_or] at h
      rw [Option.map_none, Option.map_none, Option.none_or, ← Option.map_or, ← Option.map_or, h, Option.map_some,
        if_neg (noComment hcomment)]
      rfl

/-- **What begins at a place when carriage returns are put in.** A text between quotes with a line feed in it is gone.
Everything else is there and grows by the carriage returns inside, and a comment to the end of the line by the carriage
return that comes behind it. -/
theorem next?_returned (h : next? (g :: gs) = some (lexeme, count)) (hg : g.isFeed = false) :
    next? (Glyph.returned (g :: gs)) =
      if lexeme.isQuoted && ((g :: gs).take count).any Glyph.isFeed then none
      else some (lexeme, grown (g :: gs) count + if lexeme = .comment then returnBehind (g :: gs) count else 0) := by
  have noComment (hquoted : lexeme.isQuoted = true) : lexeme ≠ .comment := by
    rintro rfl
    cases hquoted
  by_cases hdouble : g.char? = some '"'
  · obtain ⟨hquoted, hnext⟩ :=
      next?_returned_of_quoted (.head _) .interpretedString rfl (next?_doubleQuote hdouble) h hg
    rw [hnext, hquoted, Bool.true_and, if_neg (noComment hquoted), Nat.add_zero]
  by_cases hsingle : g.char? = some '\x27'
  · obtain ⟨hquoted, hnext⟩ :=
      next?_returned_of_quoted (.tail _ (.tail _ (.head _))) .rune rfl (next?_singleQuote hsingle) h hg
    rw [hnext, hquoted, Bool.true_and, if_neg (noComment hquoted), Nat.add_zero]
  have string : Extent.interpretedString (g :: gs) = none :=
    StartsIn.eq_none (.followedBy (.character (p := (· == '"')) _ rfl) _) (is_eq_false_of_ne hdouble) gs
  have character : Extent.rune (g :: gs) = none :=
    StartsIn.eq_none (.followedBy (.character (p := (· == '\x27')) _ rfl) _) (is_eq_false_of_ne hsingle) gs
  rw [isQuoted_eq_false_of_next? string character h, Bool.false_and, if_neg Bool.false_ne_true]
  exact next?_returned_of_unquoted string character h hg

end Lexeme

end SuiteReport.Go
