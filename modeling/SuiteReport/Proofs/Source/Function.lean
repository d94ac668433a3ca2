import Mathlib.Data.List.TakeWhile
import SuiteReport.Go.TestFile
import SuiteReport.Proofs.Source.Reading
import SuiteReport.Proofs.Text.Glyph
/-!
# The names of functions

A function that a source declares has a name, and the name is an identifier: the grammar asks for a word there,
a word is a token made of characters of identifiers, and putting comments into the tree moves no name. So the
name of a function holds no blank and no slash, whatever the source is.

## Main definitions

* `Lexemes.Scans`: what glyphs are read as.

## Main results

* `Lexemes.isContinuation_of_mem_tokens`: a word of a source is made of characters of identifiers.
* `Source.exists_word_of_mem_functions`: every function of a source has a name, and it is a word.
* `Source.isContinuation_of_functionName?`: the name of a function is made of characters of identifiers.
-/

namespace SuiteReport.Go

/-! ### Words -/

/-- A character that begins an identifier may also stand further on in it. -/
theorem isContinuation_of_isStart {c : Char} (h : Identifier.isStart c = true) :
    Identifier.isContinuation c = true := by
  rw [Identifier.isStart] at h
  rw [Identifier.isContinuation]
  split at h
  · rename_i hascii
    rw [if_pos hascii, Char.isAlphanum, Bool.or_assoc, Bool.or_comm c.isDigit, ← Bool.or_assoc, h, Bool.true_or]
  · rename_i hascii
    rw [if_neg hascii, h, Bool.true_or]

/-- A glyph of one class of characters is one of every larger class. -/
theorem is_of_is {g : Glyph} {p q : Char → Bool} (h : g.is p = true) (hpq : ∀ c, p c = true → q c = true) :
    g.is q = true := by
  obtain ⟨c, hc, hp⟩ := (Option.any_eq_true _ _).1 h
  exact (Option.any_eq_true _ _).2 ⟨c, hc, hpq c hp⟩

namespace Lexeme

/-- A word is made of characters of identifiers. -/
theorem isContinuation_of_word? {gs : List Glyph} {found : Lexeme × Nat} (h : word? gs = some found) :
    ∀ g ∈ gs.take found.2, g.is Identifier.isContinuation = true := by
  cases gs with
  | nil => cases h
  | cons first rest =>
      rw [word?] at h
      obtain ⟨hstart, h⟩ := Option.ite_none_right_eq_some.1 h
      obtain rfl := Option.some.inj h
      rw [List.length_cons, List.take_succ_cons, List.forall_mem_cons]
      refine ⟨is_of_is hstart fun _ => isContinuation_of_isStart, ?_⟩
      intro g hg
      rw [← List.prefix_iff_eq_take.1 (List.takeWhile_prefix _)] at hg
      exact List.mem_takeWhile_imp (p := fun g : Glyph => g.is Identifier.isContinuation) hg

/-- A literal is found as a literal. -/
theorem exists_eq_literal_of_literal? {gs : List Glyph} {found : Lexeme × Nat} (h : literal? gs = some found) :
    ∃ c, found.1 = .token (.literal c) := by
  rw [literal?] at h
  generalize literals = entries at h
  induction entries generalizing found with
  | nil => cases h
  | cons entry later ih =>
      rw [List.foldr_cons] at h
      split at h
      · exact ih h
      · obtain rfl := Option.some.inj h
        exact ⟨_, rfl⟩
      · rename_i hlater
        split at h
        · obtain rfl := Option.some.inj h
          exact ⟨_, rfl⟩
        · obtain rfl := Option.some.inj h
          exact ih hlater

/-- What is read as a word was found as one. -/
theorem word?_of_next? {gs : List Glyph} {keyword : Option Keyword} {count : Nat}
    (h : next? gs = some (.token (.word keyword), count)) :
    word? gs = some (.token (.word keyword), count) := by
  cases gs with
  | nil => cases h
  | cons first rest =>
      rw [next?] at h
      split at h
      · cases h
      split at h
      · cases h
      rcases Option.or_eq_some_iff.1 (Option.orElse_eq_or ▸ h) with h | ⟨-, h⟩
      · simp at h
      rcases Option.or_eq_some_iff.1 (Option.orElse_eq_or ▸ h) with h | ⟨-, h⟩
      · exact h
      rcases Option.or_eq_some_iff.1 (Option.orElse_eq_or ▸ h) with h | ⟨-, h⟩
      · obtain ⟨c, hc⟩ := exists_eq_literal_of_literal? h
        cases hc
      · simp [symbol?] at h

end Lexeme

namespace Lexemes

/-- A token of some lexemes is the first of them or one of the later ones. -/
theorem mem_tokens_cons {span : Span} {lexeme : Lexeme} {later : Lexemes} {t : Token}
    (h : t ∈ (later.cons span lexeme).tokens) : lexeme = .token t.cls ∧ t.span = span ∨ t ∈ later.tokens := by
  cases lexeme with
  | blank => exact .inr h
  | comment => exact .inr h
  | token cls =>
      rcases List.mem_cons.1 h with rfl | h
      · exact .inl ⟨rfl, rfl⟩
      · exact .inr h

/-- `Scans offset gs lexemes`: the glyphs, the first of which stands at the offset, are read as the lexemes. -/
inductive Scans : Nat → List Glyph → Lexemes → Prop
  | nil {offset : Nat} : Scans offset [] ⟨[], []⟩
  | cons {offset count : Nat} {g : Glyph} {gs : List Glyph} {lexeme : Lexeme} {later : Lexemes}
      (hnext : Lexeme.next? (g :: gs) = some (lexeme, count))
      (hlater : Scans (offset + Bytes.widthOf ((g :: gs).take count)) ((g :: gs).drop count) later) :
      Scans offset (g :: gs) (later.cons ⟨offset, offset + Bytes.widthOf ((g :: gs).take count)⟩ lexeme)

/-- The bound on the number of glyphs makes no difference to what they are read as. -/
theorem scans_of_scan? {n offset : Nat} {gs : List Glyph} {lexemes : Lexemes}
    (h : scan? n offset gs = some lexemes) : Scans offset gs lexemes := by
  induction n generalizing offset gs lexemes with
  | zero =>
      cases gs with
      | nil =>
          obtain rfl := Option.some.inj h
          exact .nil
      | cons g gs =>
          have h : none = some lexemes := h
          cases h
  | succ n ih =>
      cases gs with
      | nil =>
          obtain rfl := Option.some.inj h
          exact .nil
      | cons g gs =>
          obtain ⟨⟨lexeme, count⟩, hnext, h⟩ := Option.bind_eq_some_iff.1 h
          obtain ⟨later, hlater, h⟩ := Option.bind_eq_some_iff.1 h
          obtain rfl := Option.some.inj h
          exact .cons hnext (ih hlater)

/-- **The lexemes of a source** are read from some offset on: behind the byte order mark if the source begins with
one. -/
theorem exists_scans {content : Bytes} {lexemes : Lexemes} (h : ofBytes? content = some lexemes) :
    ∃ offset, Scans offset (Bytes.glyphs (content.drop offset)) lexemes := by
  rw [ofBytes?] at h
  split at h
  · rename_i hgs
    obtain rfl := Option.some.inj h
    have hstart : Bytes.glyphs (content.drop 0) = [] := hgs
    exact ⟨0, hstart ▸ .nil⟩
  · rename_i g rest hgs
    have hstart : Bytes.glyphs (content.drop 0) = g :: rest := hgs
    split at h
    · have hrest := scans_of_scan? h
      exact ⟨g.width, (Bytes.of_glyphs_eq_cons hgs).2.symm ▸ hrest⟩
    · exact ⟨0, hstart.symm ▸ scans_of_scan? h⟩

/-- The words of a source are made of characters of identifiers, from any of its glyphs on. -/
theorem Scans.isContinuation_of_mem {content : Bytes} {offset : Nat} {gs : List Glyph} {lexemes : Lexemes}
    (h : Scans offset gs lexemes) (hgs : Bytes.glyphs (content.drop offset) = gs) {t : Token}
    (ht : t ∈ lexemes.tokens) {keyword : Option Keyword} (hword : t.cls = .word keyword) :
    ∀ c ∈ (content.text t.span).toList, Identifier.isContinuation c = true := by
  induction h with
  | nil => cases ht
  | @cons offset count g gs lexeme later hnext hlater ih =>
      rcases mem_tokens_cons ht with ⟨rfl, hspan⟩ | ht
      · rw [hword] at hnext
        have letters := Lexeme.isContinuation_of_word? (Lexeme.word?_of_next? hnext)
        intro c hc
        rw [hspan] at hc
        have hchars : ∀ g' ∈ (g :: gs).take count, g'.char?.isSome := by
          intro g' hg'
          obtain ⟨c', hc', -⟩ := (Option.any_eq_true _ _).1 (letters g' hg')
          exact Option.isSome_iff_exists.2 ⟨c', hc'⟩
        obtain ⟨g', hg', hc⟩ := Bytes.exists_glyph_of_mem_text hgs hchars hc
        simpa [Glyph.is, hc] using letters g' hg'
      · have hrest := Bytes.glyphs_drop hgs count
        rw [List.drop_drop] at hrest
        exact ih hrest ht

/-- **The words of a source** are made of characters of identifiers. -/
theorem isContinuation_of_mem_tokens {content : Bytes} {lexemes : Lexemes} (h : ofBytes? content = some lexemes)
    {t : Token} (ht : t ∈ lexemes.tokens) {keyword : Option Keyword} (hword : t.cls = .word keyword) :
    ∀ c ∈ (content.text t.span).toList, Identifier.isContinuation c = true := by
  obtain ⟨offset, hscans⟩ := exists_scans h
  exact hscans.isContinuation_of_mem rfl ht hword

end Lexemes

/-! ### Comments in a tree -/

namespace Node

/-- Putting comments into a node changes nothing but its children. -/
theorem weave_eq (comments : List Span) (n : Node) :
    n.weave comments = { n with children := weaveAll comments n.children } := by
  cases n
  rw [weave]

@[simp]
theorem kind_weave (comments : List Span) (n : Node) : (n.weave comments).kind = n.kind := by
  rw [weave_eq]

@[simp]
theorem role_weave (comments : List Span) (n : Node) : (n.weave comments).role = n.role := by
  rw [weave_eq]

@[simp]
theorem span_weave (comments : List Span) (n : Node) : (n.weave comments).span = n.span := by
  rw [weave_eq]

/-- Comments are put in before the first of some nodes, into it, and behind it. -/
theorem weaveAll_cons (comments : List Span) (n : Node) (later : List Node) :
    weaveAll comments (n :: later) =
      (comments.filter fun c => c.stop ≤ n.span.start).map ofComment ++
        n.weave (comments.filter n.span.covers) ::
          weaveAll (comments.filter fun c => n.span.stop ≤ c.start) later := by
  cases n
  rw [weaveAll]

/-- Some nodes with comments put in are comments and the same nodes with comments put in. -/
theorem exists_of_mem_weaveAll {comments : List Span} {nodes : List Node} {n : Node}
    (h : n ∈ weaveAll comments nodes) (hn : n.kind ≠ .comment) :
    ∃ inner ∈ nodes, ∃ inside, n = inner.weave inside := by
  induction nodes generalizing comments with
  | nil =>
      obtain ⟨span, -, rfl⟩ := List.mem_map.1 h
      exact absurd rfl hn
  | cons first later ih =>
      rw [weaveAll_cons] at h
      rcases List.mem_append.1 h with h | h
      · obtain ⟨span, -, rfl⟩ := List.mem_map.1 h
        exact absurd rfl hn
      rcases List.mem_cons.1 h with rfl | h
      · exact ⟨first, List.mem_cons_self, _, rfl⟩
      · obtain ⟨inner, hinner, inside, rfl⟩ := ih h
        exact ⟨inner, List.mem_cons_of_mem first hinner, inside, rfl⟩

/-- What is looked for among some nodes by a property that comments do not have and that putting in comments does
not change is found at the same node as without comments. -/
theorem exists_find?_weaveAll {property : Node → Bool} (hcomment : ∀ span, property (ofComment span) = false)
    (hweave : ∀ n inside, property (n.weave inside) = property n) (comments : List Span) (nodes : List Node) :
    ∃ inside, (weaveAll comments nodes).find? property = (nodes.find? property).map (weave inside) := by
  have pass (spans : List Span) : (spans.map ofComment).find? property = none := by
    rw [List.find?_eq_none]
    intro n hn
    obtain ⟨span, -, rfl⟩ := List.mem_map.1 hn
    simp [hcomment]
  induction nodes generalizing comments with
  | nil => exact ⟨[], pass comments⟩
  | cons first later ih =>
      rw [weaveAll_cons, List.find?_append, pass, Option.none_or, List.find?_cons, List.find?_cons, hweave]
      cases property first with
      | true => exact ⟨_, rfl⟩
      | false => exact ih _

/-- The first child in a role is the same as without comments. -/
theorem exists_child?_weave (comments : List Span) (n : Node) (role : Role) :
    ∃ inside, (n.weave comments).child? role = (n.child? role).map (weave inside) := by
  rw [weave_eq]
  exact exists_find?_weaveAll (fun _ => rfl) (fun n inside => by simp) comments n.children

end Node

/-! ### The declaration of a function -/

namespace Pattern

variable {R : Type} {grammar : R → Pattern R} {context : Context} {left m : Match} {p : Pattern R}
  {tokens : List Token}

/-- The end of a statement is no node. -/
theorem nodes_of_reads_statementEnd (h : Reads grammar context left .statementEnd tokens m) : m.nodes = [] := by
  cases h
  rfl

/-- A pattern that may be missing is there or there is no node. -/
theorem reads_of_reads_maybe (h : Reads grammar context left (maybe p) tokens m) :
    Reads grammar context left p tokens m ∨ m.nodes = [] := by
  cases h with
  | choice hp h =>
      rcases List.mem_pair.1 hp with rfl | rfl
      · exact .inl h
      · cases h
        exact .inr rfl

/-- Every node of a row of items, each ended before the next one begins, was read as one of the items. -/
theorem exists_of_mem_endedList {n : Node} (h : Reads grammar context left (endedList p) tokens m)
    (hn : n ∈ m.nodes) :
    ∃ later inner, later <:+ tokens ∧ Reads grammar context left p later inner ∧ n ∈ inner.nodes := by
  obtain ⟨q, hq, later, inner, hsuffix, hinner, hmem⟩ := h.exists_of_mem_sequence hn
  simp only [List.mem_cons, List.not_mem_nil, or_false] at hq
  rcases hq with rfl | rfl | rfl
  · exact ⟨later, inner, hsuffix, hinner, hmem⟩
  · obtain ⟨later', inner', hsuffix', hinner', hmem'⟩ := hinner.exists_of_mem_many hmem
    obtain ⟨q', hq', later'', inner'', hsuffix'', hinner'', hmem''⟩ := hinner'.exists_of_mem_sequence hmem'
    rcases List.mem_pair.1 hq' with rfl | rfl
    · rw [nodes_of_reads_statementEnd hinner''] at hmem''
      cases hmem''
    · exact ⟨later'', inner'', (hsuffix''.trans hsuffix').trans hsuffix, hinner'', hmem''⟩
  · rcases reads_of_reads_maybe hinner with hinner | hinner
    · rw [nodes_of_reads_statementEnd hinner] at hmem
      cases hmem
    · rw [hinner] at hmem
      cases hmem

end Pattern

namespace Grammar

open Pattern

variable {context : Context} {left m : Match} {tokens : List Token} {n : Node}

/-- The declaration of a function has a name, and it is a word. -/
theorem exists_word_of_reads_functionDeclaration (h : Reads pattern context left functionDeclaration tokens m)
    (hn : n ∈ m.nodes) :
    ∃ t ∈ tokens, ∃ keyword, t.cls = .word keyword ∧ (n.child? .name).map Node.span = some t.span := by
  cases h with
  | node h =>
      obtain ⟨span, -, rfl⟩ := List.mem_map.1 hn
      cases h with
      | @sequenceCons _ _ first _ _ _ _ hfunc h =>
          have hnodes : first.nodes = [] := by
            cases hfunc
            rfl
          cases h with
          | sequenceCons hname h =>
              cases hname with
              | role hname =>
                  cases hname with
                  | @leaf _ _ _ _ _ rest t ht hword =>
                      have hmem : t ∈ first.rest := (suffix_of_dropWhile_isLineEnd ht).subset List.mem_cons_self
                      obtain ⟨keyword, hcls⟩ : ∃ keyword, t.cls = .word keyword := by
                        cases hc : t.cls with
                        | word keyword => exact ⟨keyword, rfl⟩
                        | _ => simp [hc, TokenClass.isWord] at hword
                      refine ⟨t, hfunc.rest_suffix.subset hmem, keyword, hcls, ?_⟩
                      simp [Match.followedBy, hnodes, Node.child?, Node.inRole]

/-- No rule makes the declaration of a function: it stands at the top level only. -/
theorem ne_functionDeclaration_of_mem_nodeKinds (r : Rule) :
    ∀ kind ∈ nodeKinds (pattern r), kind ≠ .functionDeclaration := by
  cases r <;> decide

/-- A declared function is read by the pattern for it. -/
theorem reads_functionDeclaration_of_mem_sourceItem (hleft : left.nodes = [])
    (h : Reads pattern context left sourceItem tokens m) (hn : n ∈ m.nodes) (hk : n.kind = .functionDeclaration) :
    Reads pattern context left functionDeclaration tokens m := by
  cases h with
  | @choice _ _ _ p _ _ hp h =>
      have others : p ≠ functionDeclaration → ∀ kind ∈ nodeKinds p, kind ≠ .functionDeclaration := by
        intro hne
        simp only [List.mem_cons, List.not_mem_nil, or_false] at hp
        rcases hp with rfl | rfl | rfl | rfl | rfl
        · exact absurd rfl hne
        all_goals decide
      by_cases hfunction : p = functionDeclaration
      · rwa [hfunction] at h
      · have := h.kind_of_mem ne_functionDeclaration_of_mem_nodeKinds (others hfunction) (by simp [hleft]) n hn
        exact absurd hk this

end Grammar

namespace Source

/-- The functions among the items of a source have names, and they are words. -/
theorem exists_word_of_mem_items {tokens : List Token} {items : List Node} (h : items? tokens = some items)
    {n : Node} (hn : n ∈ items) (hk : n.kind = .functionDeclaration) :
    ∃ t ∈ tokens, ∃ keyword, t.cls = .word keyword ∧ (n.child? .name).map Node.span = some t.span := by
  obtain ⟨m, hm, h⟩ := Option.bind_eq_some_iff.1 h
  obtain ⟨_, -, h⟩ := Option.bind_eq_some_iff.1 h
  obtain rfl := Option.some.inj h
  rcases Pattern.reads_of_reads_maybe (Pattern.reads_of_read hm) with hread | hnone
  · obtain ⟨later, inner, hsuffix, hinner, hmem⟩ := Pattern.exists_of_mem_endedList hread hn
    have hfunction := Grammar.reads_functionDeclaration_of_mem_sourceItem rfl hinner hmem hk
    obtain ⟨t, ht, hword⟩ := Grammar.exists_word_of_reads_functionDeclaration hfunction hmem
    exact ⟨t, hsuffix.subset ht, hword⟩
  · rw [hnone] at hn
    cases hn

/-- **Every function of a source has a name**, and it is made of characters of identifiers. -/
theorem exists_functionName? {content : Bytes} {f : Source} (h : Source.parse? content = some f)
    (settings : Settings) {n : Node} (hn : n ∈ f.functions) :
    ∃ name, (f.scope settings).functionName? n = some name ∧
      ∀ c ∈ name.toList, Identifier.isContinuation c = true := by
  obtain ⟨lexemes, hlexemes, h⟩ := Option.bind_eq_some_iff.1 h
  obtain ⟨items, hitems, h⟩ := Option.bind_eq_some_iff.1 h
  obtain rfl := Option.some.inj h
  obtain ⟨hn, hk⟩ := List.mem_filter.1 hn
  have hk : n.kind = .functionDeclaration := beq_iff_eq.1 hk
  rw [Node.weave_eq] at hn
  obtain ⟨item, hitem, inside, rfl⟩ := Node.exists_of_mem_weaveAll hn (by simp [hk])
  rw [Node.kind_weave] at hk
  obtain ⟨t, ht, keyword, hword, hspan⟩ := exists_word_of_mem_items hitems hitem hk
  obtain ⟨name, hname, hspan⟩ := Option.map_eq_some_iff.1 hspan
  obtain ⟨inside', hchild⟩ := Node.exists_child?_weave inside item .name
  refine ⟨content.text t.span, ?_, Lexemes.isContinuation_of_mem_tokens hlexemes ht hword⟩
  rw [Scope.functionName?, hchild, hname, Option.map_some, Option.map_some, Node.text, Node.span_weave, hspan]
  rfl

end Source

end SuiteReport.Go
