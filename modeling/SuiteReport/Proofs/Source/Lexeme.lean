import Mathlib.Data.List.TakeWhile
import SuiteReport.Proofs.Source.Function
/-!
# What a lexeme is made of

Numbers, words and symbols are made of solid characters: of none that is white space or ends a line. So they end at
the latest where the line does, and what follows there makes no difference to them. Comments and the texts between
quotes may hold any character, but their first and their last ones are known.

## Main definitions

* `Extent.isSolid`: the characters that are neither white space nor line ends.
* `Extent.Solid`: stretches of solid characters.
* `Extent.EndsIn`: stretches that end in a character of a class.

## Main results

* `Extent.Solid.integer`, `Extent.Solid.float`, `Extent.Solid.imaginary`: numbers are made of solid characters.
* `Lexeme.exists_solid_of_next?`: every token but a line end ends in a solid character.
* `Lexeme.slash_of_comment`: a comment begins with a slash, and ends with its line or in a slash.
-/

namespace SuiteReport.Go

namespace Extent

/-! ### Solid characters -/

/-- The characters that are white space or end a line. -/
def spaces : List Char := ['\t', '\x0B', '\x0C', '\r', ' ', '\n']

/-- Whether the character is neither white space nor a line end. -/
def isSolid (c : Char) : Bool := !spaces.contains c

/-- Whether all characters of a class are solid. -/
def SolidClass (p : Char → Bool) : Prop := ∀ c, p c = true → isSolid c = true

/-- A class of solid characters is one without white space and line ends. -/
theorem solidClass_of {p : Char → Bool} (h : spaces.any p = false) : SolidClass p := by
  intro c hc
  rw [isSolid, Bool.not_eq_true', ← Bool.not_eq_true]
  intro hspace
  have := List.any_eq_false.1 h c (List.contains_iff_mem.1 hspace)
  exact this hc

/-- Whether no solid character comes next. -/
def Stops (rest : List Glyph) : Prop := ∀ g ∈ rest.head?, g.is isSolid = false

variable {e f : Extent} {es : List Extent} {p : Char → Bool} {line rest rest' : List Glyph}

/-- Where no solid character comes next, none of a class of them does. -/
theorem Stops.any_head? (h : Stops rest) (hp : SolidClass p) : rest.head?.any (·.is p) = false := by
  cases rest with
  | nil => rfl
  | cons g rest =>
      rw [← Bool.not_eq_true]
      intro hg
      have := is_of_is hg hp
      rw [h g rfl] at this
      cases this

/-- Whether a character of a class comes next does not depend on what follows where no solid character does. -/
theorem any_head?_congr (hp : SolidClass p) (h : Stops rest) (h' : Stops rest') :
    (line ++ rest').head?.any (·.is p) = (line ++ rest).head?.any (·.is p) := by
  cases line with
  | cons g line => rfl
  | nil => rw [List.nil_append, List.nil_append, h.any_head? hp, h'.any_head? hp]

/-- Stretches of solid characters. They end at the latest where no such character comes next, and what follows there
makes no difference to them. -/
structure Solid (e : Extent) : Prop where
  /-- A stretch is made of solid characters. -/
  taken {gs : List Glyph} {n : Nat} (h : e gs = some n) : n ≤ gs.length ∧ ∀ g ∈ gs.take n, g.is isSolid = true
  /-- Behind a place where no solid character comes next, everything may be different. -/
  congr {line rest rest' : List Glyph} (h : Stops rest) (h' : Stops rest') : e (line ++ rest') = e (line ++ rest)

/-- A stretch of solid characters does not go on where none comes next. -/
theorem Solid.le_length (he : Solid e) (hrest : Stops rest) {n : Nat} (h : e (line ++ rest) = some n) :
    n ≤ line.length := by
  obtain ⟨hn, hsolid⟩ := he.taken h
  by_contra hlt
  cases rest with
  | nil =>
      rw [List.append_nil] at hn
      exact hlt hn
  | cons g rest =>
      have hg : g ∈ (line ++ g :: rest).take n := by
        obtain ⟨k, hk⟩ : ∃ k, n - line.length = k + 1 := ⟨n - line.length - 1, by omega⟩
        simp [List.take_append, hk]
      have := hsolid g hg
      rw [hrest g rfl] at this
      cases this

theorem Solid.nothing : Solid nothing where
  taken h := by
    obtain rfl := Option.some.inj h
    simp
  congr _ _ := rfl

theorem Solid.one (hp : SolidClass p) : Solid (one p) where
  taken {gs n} h := by
    cases gs with
    | nil => cases h
    | cons g gs =>
        obtain ⟨hg, h⟩ := Option.ite_none_right_eq_some.1 h
        obtain rfl := Option.some.inj h
        simpa using is_of_is hg hp
  congr {line rest rest'} h h' := by
    have first (gs : List Glyph) : Extent.one p gs = if gs.head?.any (·.is p) then some 1 else none := by
      cases gs <;> rfl
    rw [first, first, any_head?_congr hp h h']

theorem Solid.followedBy (he : Solid e) (hf : Solid f) : Solid (e.followedBy f) where
  taken {gs n} h := by
    obtain ⟨m, hm, h⟩ := Option.bind_eq_some_iff.1 h
    obtain ⟨k, hk, h⟩ := Option.bind_eq_some_iff.1 h
    obtain rfl := Option.some.inj h
    obtain ⟨hmlen, hmsolid⟩ := he.taken hm
    obtain ⟨hklen, hksolid⟩ := hf.taken hk
    rw [List.length_drop] at hklen
    rw [List.take_add]
    exact ⟨by omega, List.forall_mem_append.2 ⟨hmsolid, hksolid⟩⟩
  congr {line rest rest'} h h' := by
    rw [Extent.followedBy, Extent.followedBy, he.congr h h']
    cases hm : e (line ++ rest) with
    | none => rfl
    | some m =>
        have inLine := he.le_length h hm
        simp only [Option.bind_eq_bind, Option.bind_some, List.drop_append_of_le_length inLine, hf.congr h h']

theorem Solid.optional (he : Solid e) : Solid (optional e) where
  taken {gs n} h := by
    rw [Extent.optional] at h
    cases hn : e gs with
    | none =>
        rw [hn] at h
        obtain rfl := Option.some.inj h
        simp
    | some m =>
        rw [hn] at h
        obtain rfl := Option.some.inj h
        exact he.taken hn
  congr h h' := by rw [Extent.optional, Extent.optional, he.congr h h']

/-- The longer of two stretches is one of them. -/
theorem max_eq_or (m n : Option Nat) : max m n = m ∨ max m n = n := by
  cases m with
  | none => simp
  | some m =>
      cases n with
      | none => simp
      | some n => rcases Nat.le_total m n with h | h <;> simp [h]

/-- The longest of several stretches is one of them. -/
theorem exists_of_longest {gs : List Glyph} {n : Nat} (h : longest es gs = some n) : ∃ e ∈ es, e gs = some n := by
  rw [longest] at h
  suffices ∀ best, es.foldl (fun best e => max best (e gs)) best = some n →
      best = some n ∨ ∃ e ∈ es, e gs = some n by
    simpa using this none h
  clear h
  induction es with
  | nil => exact fun best h => .inl h
  | cons e es ih =>
      intro best h
      rw [List.foldl_cons] at h
      rcases ih _ h with h | ⟨e', he', h⟩
      · rcases max_eq_or best (e gs) with hmax | hmax
        · exact .inl (hmax ▸ h)
        · exact .inr ⟨e, List.mem_cons_self, hmax ▸ h⟩
      · exact .inr ⟨e', List.mem_cons_of_mem e he', h⟩

/-- The longest of several stretches is as long where each of them is as long. -/
theorem longest_congr {gs gs' : List Glyph} (h : ∀ e ∈ es, e gs' = e gs) : longest es gs' = longest es gs := by
  rw [longest, longest]
  generalize none = best
  induction es generalizing best with
  | nil => rfl
  | cons e es ih =>
      rw [List.forall_mem_cons] at h
      rw [List.foldl_cons, List.foldl_cons, h.1, ih h.2]

theorem Solid.longest (h : ∀ e ∈ es, Solid e) : Solid (longest es) where
  taken hn := by
    obtain ⟨e, he, hn⟩ := exists_of_longest hn
    exact (h e he).taken hn
  congr hrest hrest' := longest_congr fun e he => (h e he).congr hrest hrest'

theorem Solid.chain (h : ∀ e ∈ es, Solid e) : Solid (chain es) := by
  induction es with
  | nil => exact .nothing
  | cons e es ih =>
      rw [List.forall_mem_cons] at h
      exact h.1.followedBy (ih h.2)

theorem Solid.times (n : Nat) (hp : SolidClass p) : Solid (times n p) :=
  .chain fun e he => by
    rw [List.eq_of_mem_replicate he]
    exact .one hp

/-! ### Numbers -/

theorem Solid.character {c : Char} (hc : isSolid c = true) : Solid (character c) :=
  .one fun d hd => by rwa [beq_iff_eq.1 hd]

theorem Solid.either {c d : Char} (hc : isSolid c = true) (hd : isSolid d = true) : Solid (either c d) :=
  .one fun x hx => by
    rcases Bool.or_eq_true_iff.1 hx with hx | hx
    · rwa [beq_iff_eq.1 hx]
    · rwa [beq_iff_eq.1 hx]

theorem solidClass_lowLine : SolidClass (· == '_') := solidClass_of (by decide)

/-- A run of digits is made of solid characters. -/
theorem digitRun_taken (hp : SolidClass p) (joined : Bool) (gs : List Glyph) :
    digitRun p joined gs ≤ gs.length ∧ ∀ g ∈ gs.take (digitRun p joined gs), g.is isSolid = true := by
  fun_induction digitRun p joined gs with
  | case1 => simp
  | case2 joined g rest hg ih =>
      rw [List.take_succ_cons, List.forall_mem_cons, List.length_cons]
      exact ⟨Nat.succ_le_succ ih.1, is_of_is hg hp, ih.2⟩
  | case3 joined g rest hg hjoined ih =>
      rw [Bool.and_eq_true, Bool.and_eq_true] at hjoined
      rw [List.take_succ_cons, List.forall_mem_cons, List.length_cons]
      exact ⟨Nat.succ_le_succ ih.1, is_of_is hjoined.1.2 solidClass_lowLine, ih.2⟩
  | case4 => simp

/-- A run of digits ends at the latest where no solid character comes next. -/
theorem digitRun_congr (hp : SolidClass p) (joined : Bool) (h : Stops rest) (h' : Stops rest') :
    digitRun p joined (line ++ rest') = digitRun p joined (line ++ rest) := by
  have none_of_stops {rest : List Glyph} (h : Stops rest) (joined : Bool) : digitRun p joined rest = 0 := by
    cases rest with
    | nil => rfl
    | cons g rest =>
        have digit : g.is p = false := h.any_head? hp
        have lowLine : g.is (· == '_') = false := h.any_head? solidClass_lowLine
        simp [digitRun, digit, lowLine]
  induction line generalizing joined with
  | nil => rw [List.nil_append, List.nil_append, none_of_stops h, none_of_stops h']
  | cons g line ih => simp only [List.cons_append, digitRun, ih, any_head?_congr hp h h']

theorem Solid.digits (hp : SolidClass p) : Solid (digits p) where
  taken h := by
    obtain ⟨-, h⟩ := Option.ite_none_right_eq_some.1 h
    obtain rfl := Option.some.inj h
    exact digitRun_taken hp false _
  congr h h' := by
    rw [Extent.digits, Extent.digits, any_head?_congr hp h h', digitRun_congr hp false h h']

theorem Solid.digitsAfterPrefix (hp : SolidClass p) : Solid (digitsAfterPrefix p) :=
  .followedBy (.optional (.one solidClass_lowLine)) (.digits hp)

theorem solidClass_isDecimal : SolidClass isDecimal := solidClass_of (by decide)

theorem solidClass_isOctal : SolidClass isOctal := solidClass_of (by decide)

theorem solidClass_isBinary : SolidClass isBinary := solidClass_of (by decide)

theorem solidClass_isHexadecimal : SolidClass isHexadecimal := solidClass_of (by decide)

/-- Numbers are put together from solid characters. -/
theorem Solid.integer : Solid integer := by
  have nonzero : SolidClass fun c => isDecimal c && c != '0' := solidClass_of (by decide)
  have decimal := Solid.digitsAfterPrefix solidClass_isDecimal
  have octal := Solid.digitsAfterPrefix solidClass_isOctal
  have binary := Solid.digitsAfterPrefix solidClass_isBinary
  have hexadecimal := Solid.digitsAfterPrefix solidClass_isHexadecimal
  refine .longest ?_
  simp only [List.forall_mem_cons, List.not_mem_nil, false_imp_iff, implies_true, and_true]
  refine ⟨.chain ?_, .character (by decide), .followedBy (.one nonzero) decimal.optional, .chain ?_, .chain ?_⟩
  all_goals simp [Solid.character, Solid.either, Solid.optional, binary, octal, hexadecimal, isSolid, spaces]

theorem Solid.exponent {c d : Char} (hc : isSolid c = true) (hd : isSolid d = true) : Solid (exponent c d) := by
  have digits := Solid.digits solidClass_isDecimal
  have sign : Solid (Extent.either '+' '-') := .either (by decide) (by decide)
  exact .chain (by simp [Solid.either hc hd, sign.optional, digits])

theorem Solid.decimalFloat : Solid decimalFloat := by
  have digits := Solid.digits solidClass_isDecimal
  have point : Solid (Extent.character '.') := .character (by decide)
  have exponent : Solid (Extent.exponent 'e' 'E') := .exponent (by decide) (by decide)
  refine .longest ?_
  simp only [List.forall_mem_cons, List.not_mem_nil, false_imp_iff, implies_true, and_true]
  refine ⟨.chain ?_, .chain ?_, .chain ?_⟩
  all_goals simp [digits, digits.optional, point, exponent, exponent.optional]

theorem Solid.hexadecimalFloat : Solid hexadecimalFloat := by
  have digits := Solid.digits solidClass_isHexadecimal
  have point : Solid (Extent.character '.') := .character (by decide)
  refine .chain ?_
  simp only [List.forall_mem_cons, List.not_mem_nil, false_imp_iff, implies_true, and_true]
  refine ⟨.character (by decide), .either (by decide) (by decide), .longest ?_, .exponent (by decide) (by decide)⟩
  simp only [List.forall_mem_cons, List.not_mem_nil, false_imp_iff, implies_true, and_true]
  refine ⟨.chain ?_, .digitsAfterPrefix solidClass_isHexadecimal, .chain ?_⟩
  all_goals simp [digits, digits.optional, point, Solid.digitsAfterPrefix solidClass_isHexadecimal]

theorem Solid.float : Solid float :=
  .longest (by simp [Solid.decimalFloat, Solid.hexadecimalFloat])

theorem Solid.imaginary : Solid imaginary := by
  have unit : Solid (Extent.character 'i') := .character (by decide)
  refine .longest ?_
  simp only [List.forall_mem_cons, List.not_mem_nil, false_imp_iff, implies_true, and_true]
  exact ⟨.followedBy (.digits solidClass_isDecimal) unit, .followedBy .integer unit, .followedBy .float unit⟩

/-! ### What a stretch takes at least, and what it ends in -/

/-- Whether every stretch takes something. -/
def Positive (e : Extent) : Prop := ∀ gs n, e gs = some n → 0 < n

theorem Positive.one : Positive (one p) := by
  intro gs n h
  cases gs with
  | nil => cases h
  | cons g gs =>
      obtain ⟨-, h⟩ := Option.ite_none_right_eq_some.1 h
      obtain rfl := Option.some.inj h
      exact Nat.one_pos

theorem Positive.followedBy (he : Positive e) (f : Extent) : Positive (e.followedBy f) := by
  intro gs n h
  obtain ⟨m, hm, h⟩ := Option.bind_eq_some_iff.1 h
  obtain ⟨k, -, h⟩ := Option.bind_eq_some_iff.1 h
  obtain rfl := Option.some.inj h
  exact Nat.add_pos_left (he _ _ hm) k

theorem Positive.longest (h : ∀ e ∈ es, Positive e) : Positive (longest es) := by
  intro gs n hn
  obtain ⟨e, he, hn⟩ := exists_of_longest hn
  exact h e he _ _ hn

theorem Positive.digits : Positive (digits p) := by
  intro gs n h
  obtain ⟨hfirst, h⟩ := Option.ite_none_right_eq_some.1 h
  obtain rfl := Option.some.inj h
  cases gs with
  | nil => cases hfirst
  | cons g gs =>
      have hg : g.is p = true := hfirst
      rw [digitRun, if_pos hg]
      exact Nat.succ_pos _

theorem Positive.integer : Positive integer := by
  refine .longest ?_
  simp only [List.forall_mem_cons, List.not_mem_nil, false_imp_iff, implies_true, and_true]
  exact ⟨.followedBy .one _, .one, .followedBy .one _, .followedBy .one _, .followedBy .one _⟩

theorem Positive.float : Positive float := by
  refine .longest ?_
  simp only [List.forall_mem_cons, List.not_mem_nil, false_imp_iff, implies_true, and_true]
  refine ⟨.longest ?_, .followedBy .one _⟩
  simp only [List.forall_mem_cons, List.not_mem_nil, false_imp_iff, implies_true, and_true]
  exact ⟨.followedBy .digits _, .followedBy .digits _, .followedBy .one _⟩

theorem Positive.imaginary : Positive imaginary := by
  refine .longest ?_
  simp only [List.forall_mem_cons, List.not_mem_nil, false_imp_iff, implies_true, and_true]
  exact ⟨.followedBy .digits _, .followedBy .integer _, .followedBy .float _⟩

/-- Whether every stretch ends in a character of a class. -/
def EndsIn (p : Char → Bool) (e : Extent) : Prop :=
  ∀ gs n, e gs = some n → ∃ m g, n = m + 1 ∧ gs[m]? = some g ∧ g.is p = true

theorem EndsIn.mono {q : Char → Bool} (h : EndsIn p e) (hpq : ∀ c, p c = true → q c = true) : EndsIn q e := by
  intro gs n hn
  obtain ⟨m, g, hm, hg, hp⟩ := h gs n hn
  exact ⟨m, g, hm, hg, is_of_is hp hpq⟩

theorem EndsIn.one : EndsIn p (one p) := by
  intro gs n h
  cases gs with
  | nil => cases h
  | cons g gs =>
      obtain ⟨hg, h⟩ := Option.ite_none_right_eq_some.1 h
      obtain rfl := Option.some.inj h
      exact ⟨0, g, rfl, rfl, hg⟩

theorem EndsIn.followedBy (e : Extent) (hf : EndsIn p f) : EndsIn p (e.followedBy f) := by
  intro gs n h
  obtain ⟨m, -, h⟩ := Option.bind_eq_some_iff.1 h
  obtain ⟨k, hk, h⟩ := Option.bind_eq_some_iff.1 h
  obtain rfl := Option.some.inj h
  obtain ⟨i, g, rfl, hg, hp⟩ := hf _ k hk
  rw [List.getElem?_drop] at hg
  exact ⟨m + i, g, rfl, hg, hp⟩

/-- A stretch of solid characters that takes something ends in one of them. -/
theorem Solid.endsIn (he : Solid e) (hpos : Positive e) : EndsIn isSolid e := by
  intro gs n h
  obtain ⟨hn, hsolid⟩ := he.taken h
  obtain ⟨m, rfl⟩ := Nat.exists_eq_add_one.2 (hpos gs n h)
  refine ⟨m, gs[m], rfl, List.getElem?_eq_getElem hn, hsolid _ ?_⟩
  exact List.mem_take_iff_getElem.2 ⟨m, by omega, rfl⟩

/-! ### Comments and texts between quotes -/

/-- What a comment is, by its first two characters. -/
theorem comment_eq (gs : List Glyph) :
    comment gs =
      match gs with
      | s :: t :: rest =>
        if s.is (· == '/') && t.is (· == '/') then (restOfLine rest).map (2 + ·)
        else if s.is (· == '/') && t.is (· == '*') then (throughStarSlash rest).map (2 + ·)
        else none
      | _ => none := by
  match gs with
  | [] => rfl
  | [s] => cases hs : s.is (· == '/') <;> simp [comment, longest, chain, followedBy, character, one, hs]
  | s :: t :: rest =>
      have single : t.is (· == '/') = true → t.is (· == '*') = false := by
        intro ht
        obtain ⟨c, hc, ht⟩ := (Option.any_eq_true _ _).1 ht
        rw [Glyph.is, hc, beq_iff_eq.1 ht]
        rfl
      have added (f : Option Nat) : ((f.bind fun n => some (1 + n)).bind fun n => some (1 + n)) = f.map (2 + ·) := by
        cases f with
        | none => rfl
        | some n => exact congrArg some (Nat.add_assoc 1 1 n).symm
      cases hs : s.is (· == '/') with
      | false => simp [comment, longest, chain, followedBy, character, one, hs]
      | true =>
          cases ht : t.is (· == '/') with
          | true => simp [comment, longest, chain, followedBy, character, one, nothing, hs, ht, single ht, added]
          | false =>
              cases hstar : t.is (· == '*') <;>
                simp [comment, longest, chain, followedBy, character, one, nothing, hs, ht, hstar, added]

/-- A comment between slashes and stars ends in a slash. -/
theorem EndsIn.throughStarSlash : EndsIn (· == '/') throughStarSlash := by
  intro gs n h
  induction gs generalizing n with
  | nil => cases h
  | cons g rest ih =>
      rw [Extent.throughStarSlash] at h
      split at h
      · rename_i hend
        obtain rfl := Option.some.inj h
        rw [Bool.and_eq_true] at hend
        cases rest with
        | nil => cases hend.2
        | cons s rest => exact ⟨1, s, rfl, rfl, hend.2⟩
      · obtain ⟨m, hm, rfl⟩ := Option.map_eq_some_iff.1 h
        obtain ⟨k, s, rfl, hs, hslash⟩ := ih m hm
        exact ⟨k + 1, s, rfl, hs, hslash⟩

theorem EndsIn.rawString : EndsIn (· == '\x60') rawString := by
  refine .followedBy _ ?_
  intro gs n h
  obtain ⟨i, hi, rfl⟩ := Option.map_eq_some_iff.1 h
  obtain ⟨hlt, hquote, -⟩ := List.findIdx?_eq_some_iff_getElem.1 hi
  exact ⟨i, gs[i], rfl, List.getElem?_eq_getElem hlt, hquote⟩

theorem EndsIn.interpretedString : EndsIn (· == '"') interpretedString := by
  refine .followedBy _ ?_
  intro gs n h
  fun_induction interpretedStringRest gs generalizing n with
  | case1 => cases h
  | case2 g hg =>
      obtain rfl := Option.some.inj h
      exact ⟨0, g, rfl, rfl, hg⟩
  | case3 => cases h
  | case4 g e rest hg =>
      obtain rfl := Option.some.inj h
      exact ⟨0, g, rfl, rfl, hg⟩
  | case5 => cases h
  | case6 g e rest _ _ _ _ ih =>
      obtain ⟨k, hk, rfl⟩ := Option.map_eq_some_iff.1 h
      obtain ⟨m, q, rfl, hq, hquote⟩ := ih k hk
      exact ⟨m + 2, q, rfl, hq, hquote⟩
  | case7 => cases h
  | case8 g e rest _ _ _ ih =>
      obtain ⟨k, hk, rfl⟩ := Option.map_eq_some_iff.1 h
      obtain ⟨m, q, rfl, hq, hquote⟩ := ih k hk
      exact ⟨m + 1, q, rfl, hq, hquote⟩

theorem EndsIn.rune : EndsIn (· == '\x27') rune := by
  have last : EndsIn (· == '\x27') ((Extent.character '\x27').followedBy Extent.nothing) := by
    intro gs n h
    obtain ⟨m, hm, h⟩ := Option.bind_eq_some_iff.1 h
    obtain rfl := Option.some.inj h
    exact EndsIn.one gs m hm
  exact .followedBy _ (.followedBy _ last)

end Extent

namespace Lexeme

open Extent

variable {g : Glyph} {gs line rest rest' : List Glyph} {found : Lexeme × Nat}

theorem solidClass_isContinuation : SolidClass Identifier.isContinuation := solidClass_of (by decide)

/-- The glyphs of a class end at the latest where no solid character comes next. -/
theorem takeWhile_append_of_stops {p : Char → Bool} (hp : SolidClass p) (h : Stops rest) :
    (line ++ rest).takeWhile (·.is p) = line.takeWhile (·.is p) := by
  induction line with
  | nil =>
      cases rest with
      | nil => rfl
      | cons g rest =>
          have hg : g.is p = false := h.any_head? hp
          simp [hg]
  | cons g line ih => rw [List.cons_append, List.takeWhile_cons, List.takeWhile_cons, ih]

theorem word?_congr (h : Stops rest) (h' : Stops rest') : word? (line ++ rest') = word? (line ++ rest) := by
  have start : SolidClass Identifier.isStart := fun c hc => solidClass_isContinuation c (isContinuation_of_isStart hc)
  cases line with
  | nil =>
      have none_of_stops {rest : List Glyph} (h : Stops rest) : word? rest = none := by
        cases rest with
        | nil => rfl
        | cons g rest =>
            have hg : g.is Identifier.isStart = false := h.any_head? start
            simp [word?, hg]
      rw [List.nil_append, List.nil_append, none_of_stops h, none_of_stops h']
  | cons g line =>
      simp only [List.cons_append, word?, takeWhile_append_of_stops solidClass_isContinuation h,
        takeWhile_append_of_stops solidClass_isContinuation h']

/-- A word takes something, and what it takes are solid characters. -/
theorem word?_taken (h : word? gs = some found) :
    0 < found.2 ∧ found.2 ≤ gs.length ∧ ∀ g ∈ gs.take found.2, g.is isSolid = true := by
  refine ⟨?_, ?_, fun g hg => is_of_is (isContinuation_of_word? h g hg) solidClass_isContinuation⟩
  all_goals
    cases gs with
    | nil => cases h
    | cons g gs =>
        obtain ⟨-, h⟩ := Option.ite_none_right_eq_some.1 h
        obtain rfl := Option.some.inj h
        have := (List.takeWhile_prefix (p := (·.is Identifier.isContinuation)) (l := gs)).length_le
        simp only [List.length_cons]
        omega

/-- Symbols are written with solid characters. -/
theorem of_mem_spellings {entry : List Char × Symbol} (h : entry ∈ Symbol.spellings) :
    entry.1 ≠ [] ∧ ∀ c ∈ entry.1, isSolid c = true := by
  have all : (Symbol.spellings.all fun entry => !entry.1.isEmpty && entry.1.all isSolid) = true := by decide +kernel
  simpa using List.all_eq_true.1 all entry h

theorem begins_congr {cs : List Char} (hcs : ∀ c ∈ cs, isSolid c = true) (h : Stops rest) (h' : Stops rest') :
    begins cs (line ++ rest') = begins cs (line ++ rest) := by
  induction cs generalizing line with
  | nil => rw [begins, begins]
  | cons c cs ih =>
      rw [List.forall_mem_cons] at hcs
      cases line with
      | cons g line => rw [List.cons_append, List.cons_append, begins, begins, ih hcs.2]
      | nil =>
          have solid : SolidClass (· == c) := fun d hd => by rw [beq_iff_eq.1 hd]; exact hcs.1
          have none_of_stops {rest : List Glyph} (h : Stops rest) : begins (c :: cs) rest = false := by
            cases rest with
            | nil => rfl
            | cons g rest =>
                have hg : g.is (· == c) = false := h.any_head? solid
                simp [begins, hg]
          rw [List.nil_append, List.nil_append, none_of_stops h, none_of_stops h']

theorem begins_taken {cs : List Char} (hcs : ∀ c ∈ cs, isSolid c = true) (h : begins cs gs = true) :
    cs.length ≤ gs.length ∧ ∀ g ∈ gs.take cs.length, g.is isSolid = true := by
  induction cs generalizing gs with
  | nil => simp
  | cons c cs ih =>
      cases gs with
      | nil => cases h
      | cons g gs =>
          rw [List.forall_mem_cons] at hcs
          rw [begins, Bool.and_eq_true] at h
          obtain ⟨hlength, hsolid⟩ := ih hcs.2 h.2
          rw [List.length_cons, List.length_cons, List.take_succ_cons, List.forall_mem_cons]
          refine ⟨Nat.succ_le_succ hlength, is_of_is h.1 fun d hd => ?_, hsolid⟩
          rw [beq_iff_eq.1 hd]
          exact hcs.1

theorem symbol?_congr (h : Stops rest) (h' : Stops rest') : symbol? (line ++ rest') = symbol? (line ++ rest) := by
  have same : ∀ entry ∈ Symbol.spellings, begins entry.1 (line ++ rest') = begins entry.1 (line ++ rest) :=
    fun entry he => begins_congr (of_mem_spellings he).2 h h'
  have first (entries : List (List Char × Symbol))
      (same : ∀ entry ∈ entries, begins entry.1 (line ++ rest') = begins entry.1 (line ++ rest)) :
      entries.find? (fun entry => begins entry.1 (line ++ rest')) =
        entries.find? fun entry => begins entry.1 (line ++ rest) := by
    induction entries with
    | nil => rfl
    | cons entry entries ih =>
        rw [List.forall_mem_cons] at same
        rw [List.find?_cons, List.find?_cons, same.1, ih same.2]
  rw [symbol?, symbol?, first _ same]

theorem symbol?_taken (h : symbol? gs = some found) :
    0 < found.2 ∧ found.2 ≤ gs.length ∧ ∀ g ∈ gs.take found.2, g.is isSolid = true := by
  obtain ⟨entry, hentry, rfl⟩ := Option.map_eq_some_iff.1 h
  obtain ⟨hne, hsolid⟩ := of_mem_spellings (List.mem_of_find?_eq_some hentry)
  have hbegins : begins entry.1 gs = true :=
    List.find?_some (p := fun entry : List Char × Symbol => begins entry.1 gs) hentry
  exact ⟨List.length_pos_iff.2 hne, begins_taken hsolid hbegins⟩

/-! ### What begins at a place -/

/-- What begins at a place is white space, a line end, or else the first that fits of a comment, a word, a literal and
a symbol. -/
theorem next?_cons (g : Glyph) (gs : List Glyph) :
    next? (g :: gs) =
      if g.is isBlank then some (.blank, 1)
      else if g.is (· == '\n') then some (.token .lineEnd, 1)
      else ((Extent.comment (g :: gs)).map (Lexeme.comment, ·)).or
        ((word? (g :: gs)).or ((literal? (g :: gs)).or (symbol? (g :: gs)))) := by
  simp only [next?, Option.orElse_eq_or]

/-- A literal that is found is one of its kind. -/
theorem exists_of_literal? (h : literal? gs = some found) :
    ∃ entry ∈ literals, found.1 = .token (.literal entry.1) ∧ entry.2 gs = some found.2 := by
  rw [literal?] at h
  generalize literals = entries at h
  induction entries generalizing found with
  | nil => cases h
  | cons entry later ih =>
      have rest {found : Lexeme × Nat}
          (h : ∃ entry' ∈ later, found.1 = .token (.literal entry'.1) ∧ entry'.2 gs = some found.2) :
          ∃ entry' ∈ entry :: later, found.1 = .token (.literal entry'.1) ∧ entry'.2 gs = some found.2 := by
        obtain ⟨entry', he, hfound⟩ := h
        exact ⟨entry', List.mem_cons_of_mem entry he, hfound⟩
      rw [List.foldr_cons] at h
      split at h
      · exact rest (ih h)
      · rename_i n hn _
        obtain rfl := Option.some.inj h
        exact ⟨entry, List.mem_cons_self, rfl, hn⟩
      · rename_i n other hn hother
        split at h
        · obtain rfl := Option.some.inj h
          exact ⟨entry, List.mem_cons_self, rfl, hn⟩
        · obtain rfl := Option.some.inj h
          exact rest (ih hother)

/-- Every literal ends in a solid character. -/
theorem endsIn_of_mem_literals {entry : LiteralClass × Extent} (h : entry ∈ literals) : EndsIn isSolid entry.2 := by
  have quote {q : Char} (hq : isSolid q = true) : SolidClass (· == q) := fun c hc => by rwa [beq_iff_eq.1 hc]
  simp only [literals, List.mem_cons, List.not_mem_nil, or_false] at h
  rcases h with rfl | rfl | rfl | rfl | rfl | rfl
  · exact EndsIn.interpretedString.mono (quote (by decide))
  · exact EndsIn.rawString.mono (quote (by decide))
  · exact EndsIn.rune.mono (quote (by decide))
  · exact Solid.imaginary.endsIn .imaginary
  · exact Solid.float.endsIn .float
  · exact Solid.integer.endsIn .integer

/-- The cases of what begins at a place: white space, a line end, a comment, or any other token. -/
theorem next?_forms {count : Nat} {lexeme : Lexeme} (h : next? (g :: gs) = some (lexeme, count)) :
    (g.is isBlank = true ∧ lexeme = .blank ∧ count = 1) ∨
      (g.is (· == '\n') = true ∧ lexeme = .token .lineEnd ∧ count = 1) ∨
      (lexeme = .comment ∧ Extent.comment (g :: gs) = some count) ∨
      ∃ cls, cls ≠ .lineEnd ∧ lexeme = .token cls ∧ (word? (g :: gs) = some (lexeme, count) ∨
        literal? (g :: gs) = some (lexeme, count) ∨ symbol? (g :: gs) = some (lexeme, count)) := by
  rw [next?_cons] at h
  split at h
  · rename_i hblank
    obtain ⟨rfl, rfl⟩ := Prod.mk.inj (Option.some.inj h)
    exact .inl ⟨hblank, rfl, rfl⟩
  split at h
  · rename_i hline
    obtain ⟨rfl, rfl⟩ := Prod.mk.inj (Option.some.inj h)
    exact .inr (.inl ⟨hline, rfl, rfl⟩)
  refine .inr (.inr ?_)
  rcases Option.or_eq_some_iff.1 h with h | ⟨-, h⟩
  · obtain ⟨n, hn, h⟩ := Option.map_eq_some_iff.1 h
    obtain ⟨rfl, rfl⟩ := Prod.mk.inj h
    exact .inl ⟨rfl, hn⟩
  refine .inr ?_
  rcases Option.or_eq_some_iff.1 h with h | ⟨-, h⟩
  · obtain ⟨-, hword⟩ := Option.ite_none_right_eq_some.1 h
    obtain ⟨rfl, -⟩ := Prod.mk.inj (Option.some.inj hword)
    exact ⟨_, by simp, rfl, .inl h⟩
  rcases Option.or_eq_some_iff.1 h with h | ⟨-, h⟩
  · obtain ⟨entry, -, rfl, -⟩ := exists_of_literal? h
    exact ⟨_, by simp, rfl, .inr (.inl h)⟩
  · obtain ⟨entry, -, hentry⟩ := Option.map_eq_some_iff.1 h
    obtain ⟨rfl, -⟩ := Prod.mk.inj hentry
    exact ⟨_, by simp, rfl, .inr (.inr h)⟩

/-- Every token but a line end ends in a solid character. -/
theorem exists_solid_of_next? {count : Nat} {cls : TokenClass} (h : next? (g :: gs) = some (.token cls, count))
    (hcls : cls ≠ .lineEnd) : ∃ m last, count = m + 1 ∧ (g :: gs)[m]? = some last ∧ last.is isSolid = true := by
  have of_taken (h : 0 < count ∧ count ≤ (g :: gs).length ∧ ∀ g' ∈ (g :: gs).take count, g'.is isSolid = true) :
      ∃ m last, count = m + 1 ∧ (g :: gs)[m]? = some last ∧ last.is isSolid = true := by
    obtain ⟨hpos, hlength, hsolid⟩ := h
    obtain ⟨m, rfl⟩ := Nat.exists_eq_add_one.2 hpos
    refine ⟨m, (g :: gs)[m], rfl, List.getElem?_eq_getElem hlength, hsolid _ ?_⟩
    exact List.mem_take_iff_getElem.2 ⟨m, by omega, rfl⟩
  rcases next?_forms h with ⟨-, h, -⟩ | ⟨-, h, -⟩ | ⟨h, -⟩ | ⟨_, -, -, h | h | h⟩
  · cases h
  · cases h
    exact absurd rfl hcls
  · cases h
  · exact of_taken (word?_taken h)
  · obtain ⟨entry, hentry, -, hn⟩ := exists_of_literal? h
    exact endsIn_of_mem_literals hentry _ _ hn
  · exact of_taken (symbol?_taken h)

/-- A comment begins with a slash. It goes on to the end of its line and no further, or it ends in a slash. -/
theorem slash_of_comment {n : Nat} (h : Extent.comment gs = some n) :
    ∃ s rest, gs = s :: rest ∧ 0 < n ∧ s.is (· == '/') = true ∧
      ((∀ g ∈ gs.take n, g.is (· == '\n') = false) ∨
        ∃ m last, n = m + 1 ∧ gs[m]? = some last ∧ last.is (· == '/') = true) := by
  have noLineFeed {g : Glyph} {c : Char} (hg : g.is (· == c) = true) (hc : c ≠ '\n') : g.is (· == '\n') = false := by
    obtain ⟨d, hd, heq⟩ := (Option.any_eq_true _ _).1 hg
    rw [Glyph.is, hd, beq_iff_eq.1 heq]
    exact beq_eq_false_iff_ne.2 hc
  rw [comment_eq] at h
  split at h
  · rename_i s t rest
    split at h
    · rename_i hslashes
      rw [Bool.and_eq_true] at hslashes
      obtain ⟨n, hn, rfl⟩ := Option.map_eq_some_iff.1 h
      obtain rfl := Option.some.inj hn
      refine ⟨s, t :: rest, rfl, by omega, hslashes.1, .inl ?_⟩
      rw [Nat.add_comm 2, List.take_succ_cons, List.take_succ_cons, List.forall_mem_cons, List.forall_mem_cons,
        ← List.prefix_iff_eq_take.1 (List.takeWhile_prefix _)]
      refine ⟨noLineFeed hslashes.1 (by decide), noLineFeed hslashes.2 (by decide), fun g hg => ?_⟩
      simpa using List.mem_takeWhile_imp (p := fun g : Glyph => !g.is (· == '\n')) hg
    · obtain ⟨hstar, h⟩ := Option.ite_none_right_eq_some.1 h
      rw [Bool.and_eq_true] at hstar
      obtain ⟨n, hn, rfl⟩ := Option.map_eq_some_iff.1 h
      obtain ⟨m, last, rfl, hm, hlast⟩ := EndsIn.throughStarSlash _ _ hn
      have behind : (s :: t :: rest)[2 + m]? = some last := by simpa [Nat.add_comm 2 m] using hm
      exact ⟨s, t :: rest, rfl, by omega, hstar.1, .inr ⟨2 + m, last, by omega, behind, hlast⟩⟩
  · cases h

end Lexeme

end SuiteReport.Go
