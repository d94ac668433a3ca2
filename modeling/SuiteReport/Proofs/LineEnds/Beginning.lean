import SuiteReport.Proofs.LineEnds.Scan
import SuiteReport.Proofs.Source.Tree
/-!
# Where nodes begin

A node begins where its first token does, and that token is no line end, as line ends are passed over. So whatever
stands in a source, no node of it begins at a line feed.

## Main definitions

* `Begins`: whether a token begins at an offset.

## Main results

* `Source.every_begins`: where the nodes of a source begin.
-/

namespace SuiteReport.Go

/-- Whether one of the tokens, other than a line end, begins at the offset. -/
def Begins (all : List Token) (o : Nat) : Prop := ∃ t ∈ all, t.isLineEnd = false ∧ t.span.start = o

/-- The hull of two spans begins where one of them does. -/
theorem Begins.hull {all : List Token} (s t : Span) (hs : Begins all s.start) (ht : Begins all t.start) :
    Begins all (s.hull t).start := by
  rcases Nat.le_total s.start t.start with h | h
  · rwa [Span.hull, Nat.min_eq_left h]
  · rwa [Span.hull, Nat.min_eq_right h]

variable {content : Bytes} {lexemes : Lexemes}

/-- A token other than a line end begins with a byte other than a line feed. -/
theorem Lexemes.getElem?_start (h : ofBytes? content = some lexemes) {t : Token} (ht : t ∈ lexemes.tokens)
    (hsolid : t.isLineEnd = false) : ∃ b, content[t.span.start]? = some b ∧ b ≠ Bytes.newline := by
  obtain ⟨offset, hscans⟩ := exists_scans h
  have has : lexemes.Has (.token t.cls) t.span := ht
  obtain ⟨-, g, rest, count, hgs, hnext, -⟩ := hscans.exists_next? rfl has
  have feed := Bytes.head?_glyphs (content.drop t.span.start) (by decide : Bytes.newline.toNat < 0x80)
    (rfl : '\n'.toNat = _)
  rw [hgs, List.head?_drop] at feed
  cases hat : content[t.span.start]? with
  | none =>
      rw [List.getElem?_eq_none_iff] at hat
      rw [List.drop_eq_nil_of_le hat] at hgs
      cases hgs
  | some b =>
      refine ⟨b, rfl, ?_⟩
      rintro rfl
      rw [next?_feed (feed.2 hat)] at hnext
      obtain ⟨hcls, -⟩ := Prod.mk.inj (Option.some.inj hnext)
      rw [Token.isLineEnd, ← Lexeme.token.inj hcls] at hsolid
      cases hsolid

/-- **Where the nodes of a source begin**: inside it, and not at a line feed. -/
theorem Source.every_begins {items : List Node} (hlexemes : Lexemes.ofBytes? content = some lexemes)
    (hitems : items? lexemes.tokens = some items) :
    ∀ item ∈ items, item.Every fun n => ∃ b, content[n.span.start]? = some b ∧ b ≠ Bytes.newline := by
  have begins := every_made (P := fun s => Begins lexemes.tokens s.start) Begins.hull
    (fun t ht hsolid => ⟨t, ht, hsolid, rfl⟩) hitems
  intro item hitem
  refine (begins item hitem).mono fun n hn => ?_
  obtain ⟨-, t, ht, hsolid, hstart⟩ := hn
  rw [← hstart]
  exact Lexemes.getElem?_start hlexemes ht hsolid

end SuiteReport.Go
