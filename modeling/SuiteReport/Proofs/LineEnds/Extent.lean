import SuiteReport.Proofs.LineEnds.Content
import SuiteReport.Proofs.Source.Lexeme
/-!
# Stretches with carriage returns

A stretch of solid characters ends before its line does, so it does not notice carriage returns at line ends. Raw
strings and comments between slashes and stars grow by the carriage returns inside. A comment to the end of a line
takes up the carriage return there. Only a text between quotes on several lines is gone: a line end between single
quotes is one character and with a carriage return it is two, and a backslash escapes the carriage return and no
longer the line feed.

## Main definitions

* `Extent.grown`: how many glyphs some glyphs become.
* `Extent.Grows`: stretches that grow by the carriage returns put into them.
* `Extent.Breaks`: stretches that are as they were if they are on one line, and are gone otherwise.

## Main results

* `Extent.Solid.grows`, `Extent.Grows.rawString`: numbers and raw strings are there as before.
* `Extent.Breaks.interpretedString`, `Extent.Breaks.rune`: texts between other quotes are there if they are on one line.
* `Extent.comment_returned`: comments with carriage returns.
-/

namespace SuiteReport.Go

namespace Extent

variable {gs rest : List Glyph} {g : Glyph} {e f : Extent} {m n : Nat} {p : Char → Bool}

/-! ### Some glyphs and their carriage returns -/

/-- The number of glyphs that the first glyphs become when carriage returns are put in. -/
def grown (gs : List Glyph) (n : Nat) : Nat := (Glyph.returned (gs.take n)).length

theorem grown_zero (gs : List Glyph) : grown gs 0 = 0 := rfl

theorem grown_feed (hg : g.isFeed = true) (gs : List Glyph) (n : Nat) : grown (g :: gs) (n + 1) = grown gs n + 2 := by
  rw [grown, List.take_succ_cons, Glyph.returned_feed hg]
  rfl

theorem grown_cons (hg : g.isFeed = false) (gs : List Glyph) (n : Nat) : grown (g :: gs) (n + 1) = grown gs n + 1 := by
  rw [grown, List.take_succ_cons, Glyph.returned_cons hg]
  rfl

/-- A stretch behind a glyph grows as it does alone. -/
theorem map_grown_cons (hg : g.isFeed = false) (gs : List Glyph) (found : Option Nat) :
    (found.map (grown gs)).map (· + 1) = (found.map (· + 1)).map (grown (g :: gs)) := by
  cases found with
  | none => rfl
  | some n => exact congrArg some (grown_cons hg gs n).symm

/-- A stretch behind a line feed grows as it does alone, and by the carriage return. -/
theorem map_grown_feed (hg : g.isFeed = true) (gs : List Glyph) (found : Option Nat) :
    ((found.map (grown gs)).map (· + 1)).map (· + 1) = (found.map (· + 1)).map (grown (g :: gs)) := by
  cases found with
  | none => rfl
  | some n => exact congrArg some (grown_feed hg gs n).symm

/-- More glyphs become more. -/
theorem grown_lt (h : m < n) (hn : n ≤ gs.length) : grown gs m < grown gs n := by
  induction gs generalizing m n with
  | nil =>
      rw [List.length_nil] at hn
      omega
  | cons g gs ih =>
      obtain ⟨n, rfl⟩ := Nat.exists_eq_add_one_of_ne_zero (Nat.ne_zero_of_lt h)
      rw [List.length_cons] at hn
      cases hg : g.isFeed with
      | true =>
          rw [grown_feed hg]
          cases m with
          | zero => rw [grown_zero]; omega
          | succ m =>
              have := ih (Nat.lt_of_succ_lt_succ h) (Nat.le_of_succ_le_succ hn)
              rw [grown_feed hg]
              omega
      | false =>
          rw [grown_cons hg]
          cases m with
          | zero => rw [grown_zero]; omega
          | succ m =>
              have := ih (Nat.lt_of_succ_lt_succ h) (Nat.le_of_succ_le_succ hn)
              rw [grown_cons hg]
              omega

/-- Glyphs on one line become no more. -/
theorem grown_of_oneLine (hn : n ≤ gs.length) (h : ∀ g ∈ gs.take n, g.isFeed = false) : grown gs n = n := by
  rw [grown, Glyph.returned_eq_self h, List.length_take, Nat.min_eq_left hn]

theorem returned_eq_take_append (gs : List Glyph) (n : Nat) :
    Glyph.returned gs = Glyph.returned (gs.take n) ++ Glyph.returned (gs.drop n) := by
  rw [← Glyph.returned_append, List.take_append_drop]

/-- The first glyphs, with carriage returns put in, are the first glyphs of all of them. -/
theorem take_grown (gs : List Glyph) (n : Nat) :
    (Glyph.returned gs).take (grown gs n) = Glyph.returned (gs.take n) := by
  rw [returned_eq_take_append gs n, grown, List.take_left]

/-- Behind the first glyphs are the others. -/
theorem drop_grown (gs : List Glyph) (n : Nat) :
    (Glyph.returned gs).drop (grown gs n) = Glyph.returned (gs.drop n) := by
  rw [returned_eq_take_append gs n, grown, List.drop_left]

/-! ### Growing and breaking -/

/-- Whether the stretches grow by the carriage returns put into them, and are there as before. -/
def Grows (e : Extent) : Prop := ∀ gs, e (Glyph.returned gs) = (e gs).map (grown gs)

/-- Whether the stretches on one line are as they were when carriage returns are put in, and others are gone. -/
def Breaks (e : Extent) : Prop :=
  ∀ gs, e (Glyph.returned gs) = (e gs).filter fun n => (gs.take n).all (!·.isFeed)

/-- A line feed is not solid, and a carriage return is not. -/
theorem not_isSolid_of_isFeed (hg : g.isFeed = true) : g.is isSolid = false := by
  obtain ⟨c, hc, heq⟩ := (Option.any_eq_true _ _).1 hg
  rw [Glyph.is, hc, beq_iff_eq.1 heq]
  rfl

/-- The glyphs begin with those on the first line. -/
theorem exists_line (gs : List Glyph) :
    ∃ line rest, gs = line ++ rest ∧ (∀ g ∈ line, g.isFeed = false) ∧ Stops rest ∧
      Stops (Glyph.returned rest) ∧ Glyph.returned gs = line ++ Glyph.returned rest := by
  induction gs with
  | nil => exact ⟨[], [], rfl, by simp, by simp [Stops], by simp [Stops, Glyph.returned], rfl⟩
  | cons g gs ih =>
      cases hg : g.isFeed with
      | true =>
          refine ⟨[], g :: gs, rfl, by simp, ?_, ?_, rfl⟩
          · intro g' hg'
            rw [← Option.some.inj hg']
            exact not_isSolid_of_isFeed hg
          · intro g' hg'
            rw [Glyph.returned_feed hg] at hg'
            rw [← Option.some.inj hg']
            rfl
      | false =>
          obtain ⟨line, rest, rfl, hline, hrest, hreturned, heq⟩ := ih
          refine ⟨g :: line, rest, rfl, List.forall_mem_cons.2 ⟨hg, hline⟩, hrest, hreturned, ?_⟩
          rw [Glyph.returned_cons hg, heq]
          rfl

/-- A stretch of solid characters does not notice carriage returns, since it is on one line. -/
theorem Solid.returned_eq (he : Solid e) (gs : List Glyph) :
    e (Glyph.returned gs) = e gs ∧ ∀ n ∈ e gs, n ≤ gs.length ∧ ∀ g ∈ gs.take n, g.isFeed = false := by
  obtain ⟨line, rest, rfl, hline, hrest, hreturned, heq⟩ := exists_line gs
  refine ⟨heq ▸ he.congr hrest hreturned, fun n hn => ?_⟩
  have inLine := he.le_length hrest hn
  rw [List.take_append_of_le_length inLine, List.length_append]
  exact ⟨inLine.trans (Nat.le_add_right _ _), fun g hg => hline g (List.mem_of_mem_take hg)⟩

theorem Solid.grows (he : Solid e) : Grows e := by
  intro gs
  obtain ⟨heq, hline⟩ := he.returned_eq gs
  rw [heq]
  cases hn : e gs with
  | none => rfl
  | some n =>
      obtain ⟨hlength, hfeed⟩ := hline n hn
      rw [Option.map_some, grown_of_oneLine hlength hfeed]

theorem Solid.breaks (he : Solid e) : Breaks e := by
  intro gs
  obtain ⟨heq, hline⟩ := he.returned_eq gs
  rw [heq]
  cases hn : e gs with
  | none => rfl
  | some n =>
      obtain ⟨-, hfeed⟩ := hline n hn
      rw [Option.filter_some, if_pos (List.all_eq_true.2 fun g hg => by simp [hfeed g hg])]

/-! ### A character and what stands behind it -/

/-- What begins with a given character. -/
theorem character_followedBy_cons (c : Char) (f : Extent) (g : Glyph) (gs : List Glyph) :
    (character c).followedBy f (g :: gs) = if g.is (· == c) then (f gs).map (1 + ·) else none := by
  rw [followedBy, character, one]
  split
  · change ((f gs).bind fun n => some (1 + n)) = (f gs).map (1 + ·)
    cases f gs <;> rfl
  · rfl

/-- A character other than a line feed is no line feed. -/
theorem not_isFeed {c : Char} (hc : c ≠ '\n') (hg : g.is (· == c) = true) : g.isFeed = false := by
  obtain ⟨d, hd, heq⟩ := (Option.any_eq_true _ _).1 hg
  rw [Glyph.isFeed, Glyph.is, hd, beq_iff_eq.1 heq]
  exact beq_eq_false_iff_ne.2 hc

/-- A line feed is no other character. -/
theorem is_eq_false_of_isFeed {c : Char} (hc : c ≠ '\n') (hg : g.isFeed = true) : g.is (· == c) = false := by
  rw [← Bool.not_eq_true]
  intro h
  rw [not_isFeed hc h] at hg
  cases hg

/-- If a line feed or a carriage return comes first, no other given character does. -/
theorem character_followedBy_feed {c : Char} (hfeed : c ≠ '\n') (hret : c ≠ '\r') (hg : g.isFeed = true)
    (gs : List Glyph) : (character c).followedBy f (Glyph.returned (g :: gs)) = none ∧
      (character c).followedBy f (g :: gs) = none := by
  rw [Glyph.returned_feed hg, character_followedBy_cons, character_followedBy_cons, is_eq_false_of_isFeed hfeed hg]
  exact ⟨if_neg (by simpa [Glyph.is] using hret.symm), rfl⟩

theorem Grows.behind {c : Char} (hfeed : c ≠ '\n') (hret : c ≠ '\r') (hf : Grows f) :
    Grows ((character c).followedBy f) := by
  intro gs
  cases gs with
  | nil => rfl
  | cons g gs =>
      cases hg : g.isFeed with
      | true =>
          obtain ⟨hreturned, hnone⟩ := character_followedBy_feed (f := f) hfeed hret hg gs
          rw [hreturned, hnone]
          rfl
      | false =>
          rw [Glyph.returned_cons hg, character_followedBy_cons, character_followedBy_cons, hf]
          split
          · simp only [Nat.add_comm 1]
            exact map_grown_cons hg gs (f gs)
          · rfl

/-! ### Raw strings and comments -/

theorem Grows.through (hfeed : p '\n' = false) (hret : p '\r' = false) : Grows (through p) := by
  have cons (g : Glyph) (gs : List Glyph) :
      Extent.through p (g :: gs) = if g.is p then some 1 else (Extent.through p gs).map (· + 1) := by
    rw [Extent.through, Extent.through, List.findIdx?_cons]
    split
    · rfl
    · simp [Option.map_map, Function.comp_def]
  intro gs
  induction gs with
  | nil => rfl
  | cons g gs ih =>
      cases hg : g.isFeed with
      | true =>
          have other : g.is p = false := by
            obtain ⟨c, hc, heq⟩ := (Option.any_eq_true _ _).1 hg
            rw [Glyph.is, hc, beq_iff_eq.1 heq]
            exact hfeed
          have ret : Glyph.is ⟨some '\r', 1⟩ p = false := hret
          rw [Glyph.returned_feed hg, cons, cons, cons, ret, other, ih]
          exact map_grown_feed hg gs _
      | false =>
          rw [Glyph.returned_cons hg, cons, cons, ih]
          split
          · rw [Option.map_some, grown_cons hg, grown_zero]
          · exact map_grown_cons hg gs _

theorem Grows.rawString : Grows rawString :=
  .behind (by decide) (by decide) (.through (by decide) (by decide))

theorem Grows.throughStarSlash : Grows throughStarSlash := by
  intro gs
  induction gs with
  | nil => rfl
  | cons g gs ih =>
      cases hg : g.isFeed with
      | true =>
          have other : g.is (· == '*') = false := is_eq_false_of_isFeed (by decide) hg
          have ret : Glyph.is ⟨some '\r', 1⟩ (· == '*') = false := rfl
          rw [Glyph.returned_feed hg, Extent.throughStarSlash, Extent.throughStarSlash, Extent.throughStarSlash, ret,
            other, ih]
          exact map_grown_feed hg gs _
      | false =>
          have next : (Glyph.returned gs).head?.any (·.is (· == '/')) = gs.head?.any (·.is (· == '/')) := by
            cases gs with
            | nil => rfl
            | cons s gs =>
                cases hs : s.isFeed with
                | false => rw [Glyph.returned_cons hs]; rfl
                | true =>
                    rw [Glyph.returned_feed hs]
                    exact (is_eq_false_of_isFeed (by decide) hs).symm
          rw [Glyph.returned_cons hg, Extent.throughStarSlash, Extent.throughStarSlash, next, ih]
          split
          · rename_i hend
            rw [Bool.and_eq_true] at hend
            cases gs with
            | nil => cases hend.2
            | cons s gs =>
                rw [Option.map_some, grown_cons hg, grown_cons (not_isFeed (by decide) hend.2), grown_zero]
          · exact map_grown_cons hg gs _

/-! ### Texts between quotes on one line -/

/-- A stretch behind a glyph other than a line feed is on one line if it is alone. -/
theorem filter_oneLine_cons (hg : g.isFeed = false) (gs : List Glyph) (found : Option Nat) :
    (found.filter fun n => (gs.take n).all (!·.isFeed)).map (· + 1) =
      (found.map (· + 1)).filter fun n => ((g :: gs).take n).all (!·.isFeed) := by
  cases found with
  | none => rfl
  | some n =>
      simp only [Option.map_some, Option.filter_some, List.take_succ_cons, List.all_cons, hg, Bool.not_false,
        Bool.true_and]
      split <;> rfl

/-- A stretch with a line feed is not on one line. -/
theorem filter_oneLine_feed (hg : g.isFeed = true) (gs : List Glyph) (found : Option Nat) :
    ((found.map (· + 1)).filter fun n => ((g :: gs).take n).all (!·.isFeed)) = none := by
  cases found with
  | none => rfl
  | some n =>
      simp only [Option.map_some, Option.filter_some, List.take_succ_cons, List.all_cons, hg, Bool.not_true,
        Bool.false_and, Bool.false_eq_true, if_false]

/-- One glyph other than a line feed is on one line. -/
theorem filter_oneLine_one (hg : g.isFeed = false) (gs : List Glyph) :
    ((some 1).filter fun n => ((g :: gs).take n).all (!·.isFeed)) = some 1 := by
  rw [Option.filter_some, if_pos (by simp [hg])]

theorem Breaks.behind {c : Char} (hfeed : c ≠ '\n') (hret : c ≠ '\r') (hf : Breaks f) :
    Breaks ((character c).followedBy f) := by
  intro gs
  cases gs with
  | nil => rfl
  | cons g gs =>
      cases hg : g.isFeed with
      | true =>
          obtain ⟨hreturned, hnone⟩ := character_followedBy_feed (f := f) hfeed hret hg gs
          rw [hreturned, hnone]
          rfl
      | false =>
          rw [Glyph.returned_cons hg, character_followedBy_cons, character_followedBy_cons, hf]
          split
          · simp only [Nat.add_comm 1]
            exact filter_oneLine_cons hg gs (f gs)
          · rfl

/-- Whether there is an escape does not depend on carriage returns. -/
theorem isEscape_returned (g : Glyph) (gs : List Glyph) : isEscape g (Glyph.returned gs) = isEscape g gs := by
  have same (n : Nat) : times n isHexadecimal (Glyph.returned gs) = times n isHexadecimal gs :=
    ((Solid.times n solidClass_isHexadecimal).returned_eq gs).1
  simp only [isEscape, same]

/-- A line feed is an escape as far as the grammar goes. -/
theorem isEscape_of_isFeed (hg : g.isFeed = true) (gs : List Glyph) : isEscape g gs = true := by
  have other {c : Char} (hc : c ≠ '\n') : g.is (· == c) = false := is_eq_false_of_isFeed hc hg
  simp [isEscape, other]

/-- What a text between double quotes goes on with behind a glyph, if something follows it. -/
theorem interpretedStringRest_cons (g : Glyph) (h : gs ≠ []) :
    interpretedStringRest (g :: gs) =
      if g.is (· == '"') then some 1
      else if g.isFeed then none
      else if g.is (· == '\\') then
        gs.head?.bind fun e => if isEscape e gs.tail then (interpretedStringRest gs.tail).map (· + 2) else none
      else (interpretedStringRest gs).map (· + 1) := by
  cases gs with
  | nil => exact absurd rfl h
  | cons e rest =>
      rw [interpretedStringRest]
      rfl

/-- At a line feed there is no text between double quotes to go on with. -/
theorem interpretedStringRest_feed (hg : g.isFeed = true) (gs : List Glyph) :
    interpretedStringRest (g :: gs) = none := by
  have quote : g.is (· == '"') = false := is_eq_false_of_isFeed (by decide) hg
  cases gs with
  | nil => simp [interpretedStringRest, quote]
  | cons e rest => simp [interpretedStringRest_cons, quote, hg]

theorem Breaks.interpretedStringRest : Breaks interpretedStringRest := by
  have ret (g : Glyph) (gs : List Glyph) : Extent.interpretedStringRest (⟨some '\r', 1⟩ :: g :: gs) =
      (Extent.interpretedStringRest (g :: gs)).map (· + 1) :=
    interpretedStringRest_cons _ (List.cons_ne_nil _ _)
  have two (found : Option Nat) : found.map (· + 2) = (found.map (· + 1)).map (· + 1) := by cases found <;> rfl
  intro gs
  fun_induction Extent.interpretedStringRest gs with
  | case1 => rfl
  | case2 g hg =>
      have one : g.isFeed = false := not_isFeed (by decide) hg
      rw [Glyph.returned_cons one, Glyph.returned_nil, Extent.interpretedStringRest, if_pos hg,
        filter_oneLine_one one]
  | case3 g hg =>
      cases hfeed : g.isFeed with
      | true =>
          rw [Glyph.returned_feed hfeed, ret, interpretedStringRest_feed hfeed]
          rfl
      | false =>
          rw [Glyph.returned_cons hfeed, Glyph.returned_nil, Extent.interpretedStringRest, if_neg hg]
          rfl
  | case4 g e rest hg =>
      have one : g.isFeed = false := not_isFeed (by decide) hg
      have more : Glyph.returned (e :: rest) ≠ [] := List.ne_nil_of_mem (subset_marked List.mem_cons_self)
      rw [Glyph.returned_cons one, interpretedStringRest_cons _ more, if_pos hg, filter_oneLine_one one]
  | case5 g e rest hg hfeed =>
      rw [Glyph.returned_feed hfeed, ret, interpretedStringRest_feed hfeed]
      rfl
  | case6 g e rest hg hfeed hback hescape ih =>
      have one : g.isFeed = false := not_isFeed (by decide) hback
      cases he : e.isFeed with
      | true =>
          rw [Glyph.returned_cons one, Glyph.returned_feed he, interpretedStringRest_cons _ (List.cons_ne_nil _ _),
            if_neg hg, if_neg (by simp [one]), if_pos hback]
          have escaped (gs : List Glyph) : isEscape ⟨some '\r', 1⟩ gs = true := by simp [isEscape, Glyph.is]
          rw [List.head?_cons, Option.bind_some, List.tail_cons, if_pos (escaped _), interpretedStringRest_feed he,
            two (Extent.interpretedStringRest rest), ← filter_oneLine_cons one, filter_oneLine_feed he]
          rfl
      | false =>
          rw [Glyph.returned_cons one, Glyph.returned_cons he, interpretedStringRest_cons _ (List.cons_ne_nil _ _),
            if_neg hg, if_neg (by simp [one]), if_pos hback, List.head?_cons, Option.bind_some, List.tail_cons,
            isEscape_returned, if_pos hescape, ih, two, two, ← filter_oneLine_cons one, ← filter_oneLine_cons he]
  | case7 g e rest hg hfeed hback hescape =>
      have one : g.isFeed = false := not_isFeed (by decide) hback
      have he : e.isFeed = false := by
        rw [← Bool.not_eq_true]
        exact fun he => hescape (isEscape_of_isFeed he rest)
      rw [Glyph.returned_cons one, Glyph.returned_cons he, interpretedStringRest_cons _ (List.cons_ne_nil _ _),
        if_neg hg, if_neg (by simp [one]), if_pos hback]
      simp [isEscape_returned, hescape]
  | case8 g e rest hg hfeed hback ih =>
      have one : g.isFeed = false := Bool.not_eq_true _ ▸ hfeed
      have more : Glyph.returned (e :: rest) ≠ [] := List.ne_nil_of_mem (subset_marked List.mem_cons_self)
      rw [Glyph.returned_cons one, interpretedStringRest_cons _ more, if_neg hg, if_neg (by simp [one]), if_neg hback,
        ih]
      exact filter_oneLine_cons one _ _

theorem Breaks.interpretedString : Breaks interpretedString := .behind (by decide) (by decide) .interpretedStringRest

/-- An escape between single quotes. -/
def runeEscape : Extent :=
  (character '\\').followedBy (longest [
    chain [character 'x', times 2 isHexadecimal],
    times 3 isOctal,
    chain [character 'u', times 4 isHexadecimal],
    chain [character 'U', times 8 isHexadecimal],
    one (['a', 'b', 'f', 'n', 'r', 't', 'v', '\\', '\x27', '"'].contains ·)])

theorem Solid.runeEscape : Solid runeEscape := by
  have letters : SolidClass (['a', 'b', 'f', 'n', 'r', 't', 'v', '\\', '\x27', '"'].contains ·) :=
    solidClass_of (by decide)
  have hexadecimals (n : Nat) := Solid.times n solidClass_isHexadecimal
  refine .followedBy (.character (by decide)) (.longest ?_)
  simp only [List.forall_mem_cons, List.not_mem_nil, false_imp_iff, implies_true, and_true]
  refine ⟨.chain ?_, .times 3 solidClass_isOctal, .chain ?_, .chain ?_, .one letters⟩
  all_goals simp [hexadecimals, Solid.character, isSolid, spaces]

/-- The quote that closes a character. -/
def closingQuote : Extent := chain [character '\x27']

theorem Solid.closingQuote : Solid closingQuote := .chain (by simp [Solid.character, isSolid, spaces])

/-- What a character goes on with behind the opening quote: an escape, or one glyph whatever it is, and the closing
quote. -/
def runeRest : Extent := fun gs =>
  match gs with
  | [] => none
  | g :: rest =>
    if g.is (· == '\\') then runeEscape.followedBy closingQuote gs
    else if g.is (· == '\x27') then none
    else (closingQuote rest).map (· + 1)

theorem rune_eq : rune = (character '\x27').followedBy runeRest := by
  let plain : Extent := fun gs => match gs with
    | [] => none
    | g :: _ => if g.is (fun c => c == '\x27' || c == '\\') then none else some 1
  have rest : (longest [plain, runeEscape]).followedBy closingQuote = runeRest := by
    funext gs
    cases gs with
    | nil => rfl
    | cons g gs =>
        have either : g.is (fun c => c == '\x27' || c == '\\') = (g.is (· == '\x27') || g.is (· == '\\')) := by
          cases hg : g.char? <;> simp [Glyph.is, hg]
        have found : longest [plain, runeEscape] (g :: gs) =
            max (max none (if g.is (· == '\x27') || g.is (· == '\\') then none else some 1)) (runeEscape (g :: gs)) :=
          either ▸ rfl
        have escape : g.is (· == '\\') = false → runeEscape (g :: gs) = none := by
          intro h
          rw [runeEscape, character_followedBy_cons, h]
          rfl
        rw [followedBy, found, runeRest]
        cases hback : g.is (· == '\\') with
        | true =>
            have alone : max (max none none) (runeEscape (g :: gs)) = runeEscape (g :: gs) := by simp
            rw [Bool.or_true, if_pos rfl, if_pos rfl, alone]
            rfl
        | false =>
            rw [Bool.or_false, escape hback]
            cases hquote : g.is (· == '\x27') with
            | true => rfl
            | false =>
                change ((closingQuote gs).bind fun n => some (1 + n)) = (closingQuote gs).map (· + 1)
                cases closingQuote gs with
                | none => rfl
                | some n => exact congrArg some (Nat.add_comm 1 n)
  rw [← rest]
  rfl

theorem Breaks.runeRest : Breaks runeRest := by
  intro gs
  cases gs with
  | nil => rfl
  | cons g gs =>
      cases hg : g.isFeed with
      | true =>
          have ret : Extent.runeRest (⟨some '\r', 1⟩ :: g :: Glyph.returned gs) =
              (closingQuote (g :: Glyph.returned gs)).map (· + 1) := rfl
          have back : g.is (· == '\\') = false := is_eq_false_of_isFeed (by decide) hg
          have quote : g.is (· == '\x27') = false := is_eq_false_of_isFeed (by decide) hg
          have closed : closingQuote (g :: Glyph.returned gs) = none := by
            rw [closingQuote, chain, List.foldr_cons, character_followedBy_cons, quote]
            rfl
          rw [Glyph.returned_feed hg, ret, closed, Extent.runeRest, back, quote]
          exact (filter_oneLine_feed hg gs _).symm
      | false =>
          rw [Glyph.returned_cons hg, Extent.runeRest, Extent.runeRest]
          split
          · rw [← Glyph.returned_cons hg]
            exact (Solid.runeEscape.followedBy .closingQuote).breaks (g :: gs)
          · split
            · rfl
            · rw [Solid.closingQuote.breaks gs]
              exact filter_oneLine_cons hg gs _

theorem Breaks.rune : Breaks rune := rune_eq ▸ .behind (by decide) (by decide) .runeRest

/-! ### Comments -/

/-- The carriage return that a comment to the end of the line takes up: there is one if a line feed comes behind. -/
def returnBehind (gs : List Glyph) (n : Nat) : Nat :=
  if gs[1]?.any (·.is (· == '/')) && (gs.drop n).head?.any Glyph.isFeed then 1 else 0

/-- The rest of a line takes up the carriage return at its end. -/
theorem length_restOfLine_returned (gs : List Glyph) :
    ((Glyph.returned gs).takeWhile (!·.isFeed)).length =
      (gs.takeWhile (!·.isFeed)).length +
        if (gs.drop (gs.takeWhile (!·.isFeed)).length).head?.any Glyph.isFeed then 1 else 0 := by
  induction gs with
  | nil => rfl
  | cons g gs ih =>
      cases hg : g.isFeed with
      | true =>
          simp [Glyph.returned_feed hg, hg]
      | false =>
          rw [Glyph.returned_cons hg, List.takeWhile_cons_of_pos (by simp [hg]),
            List.takeWhile_cons_of_pos (by simp [hg]), List.length_cons, List.length_cons, ih, List.drop_succ_cons]
          omega

/-- **Comments grow** by the carriage returns inside, and one to the end of the line by the carriage return there. -/
theorem comment_returned (gs : List Glyph) :
    comment (Glyph.returned gs) = (comment gs).map fun n => grown gs n + returnBehind gs n := by
  have slash {g : Glyph} (hg : g.isFeed = true) : g.is (· == '/') = false := is_eq_false_of_isFeed (by decide) hg
  have star {g : Glyph} (hg : g.isFeed = true) : g.is (· == '*') = false := is_eq_false_of_isFeed (by decide) hg
  have ret (p : Char → Bool) : Glyph.is ⟨some '\r', 1⟩ p = p '\r' := rfl
  match gs with
  | [] => rfl
  | [s] =>
      cases hs : s.isFeed with
      | true => simp [Glyph.returned_feed hs, comment_eq, ret]
      | false => simp [Glyph.returned_cons hs, comment_eq]
  | s :: t :: rest =>
      cases hs : s.isFeed with
      | true => simp [Glyph.returned_feed hs, comment_eq, ret, slash hs]
      | false =>
          cases ht : t.isFeed with
          | true => simp [Glyph.returned_cons hs, Glyph.returned_feed ht, comment_eq, ret, slash ht, star ht]
          | false =>
              have two (n : Nat) : grown (s :: t :: rest) (2 + n) = 2 + grown rest n := by
                rw [Nat.add_comm 2 n, grown_cons hs, grown_cons ht]
                omega
              have behind (n : Nat) : (s :: t :: rest).drop (2 + n) = rest.drop n := by rw [Nat.add_comm 2 n]; rfl
              have form (rest : List Glyph) : comment (s :: t :: rest) =
                  if s.is (· == '/') && t.is (· == '/') then (restOfLine rest).map (2 + ·)
                  else if s.is (· == '/') && t.is (· == '*') then (throughStarSlash rest).map (2 + ·)
                  else none := comment_eq _
              rw [Glyph.returned_cons hs, Glyph.returned_cons ht, form, form]
              split
              · rename_i hslashes
                rw [Bool.and_eq_true] at hslashes
                have line (gs : List Glyph) : restOfLine gs = some (gs.takeWhile (!·.isFeed)).length := rfl
                rw [line, line, Option.map_some, Option.map_some, Option.map_some, two, returnBehind, behind,
                  length_restOfLine_returned, grown_of_oneLine]
                · simp [hslashes.2, Nat.add_assoc]
                · exact (List.takeWhile_prefix _).length_le
                · intro g hg
                  rw [← List.prefix_iff_eq_take.1 (List.takeWhile_prefix _)] at hg
                  simpa using List.mem_takeWhile_imp hg
              · split
                · rename_i hslashes hstar
                  rw [Bool.and_eq_true] at hstar
                  have noSlash : t.is (· == '/') = false := by
                    rw [hstar.1, Bool.true_and, Bool.not_eq_true] at hslashes
                    exact hslashes
                  rw [Grows.throughStarSlash, Option.map_map, Option.map_map]
                  congr 1
                  funext n
                  simp [two, returnBehind, noSlash]
                · rfl

end Extent

end SuiteReport.Go
