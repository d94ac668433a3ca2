import Mathlib.Data.List.Basic
import SuiteReport.Go.Pattern
/-!
# Readings of a pattern

The reader of patterns spends steps, tries alternatives in order and looks ahead. What it reads can be said
without any of that: a reading of a pattern is put together from readings of its parts, and every answer of the
reader is a reading. The conditions under which the reader refuses something else, such as an earlier
alternative or a pattern that must not come next, are left out; so a pattern may have readings that the reader
never gives, and what holds of all readings holds of every answer.

## Main definitions

* `Pattern.Reads`: the readings of a pattern at the beginning of a row of tokens.
* `Pattern.nodeKinds`: the kinds of the nodes that a pattern makes without the help of its rules.

## Main results

* `Pattern.reads_of_read`: every answer of the reader is a reading.
* `Pattern.Reads.rest_suffix`: what is left of the tokens is the end of them.
* `Pattern.Reads.kind_of_mem`: only kinds that are made somewhere in the grammar are read.
-/

namespace SuiteReport.Go

/-! ### Matches one after the other -/

namespace Match

theorem hull?_none (s : Option Span) : hull? s none = s := by
  cases s <;> rfl

theorem hull?_assoc (s t u : Option Span) : hull? (hull? s t) u = hull? s (hull? t u) := by
  cases s with
  | none => rfl
  | some s =>
      cases t with
      | none => rfl
      | some t =>
          cases u with
          | none => rfl
          | some u => simp [hull?, Span.hull, Nat.min_assoc, Nat.max_assoc]

theorem followedBy_assoc (m later last : Match) :
    (m.followedBy later).followedBy last = m.followedBy (later.followedBy last) := by
  simp [followedBy, hull?_assoc]

theorem nothing_followedBy (tokens : List Token) (m : Match) : (nothing tokens).followedBy m = m := by
  simp [followedBy, nothing, hull?]

theorem followedBy_nothing (m : Match) : m.followedBy (nothing m.rest) = m := by
  simp [followedBy, nothing, hull?_none]

end Match

namespace Pattern

variable {R : Type} {grammar : R → Pattern R}

/-! ### Readings -/

/-- The readings of a pattern at the beginning of a row of tokens, where `left` is being extended. -/
inductive Reads (grammar : R → Pattern R) : Context → Match → Pattern R → List Token → Match → Prop
  | token {context : Context} {left : Match} {accepts : TokenClass → Bool} {tokens rest : List Token} {t : Token}
      (ht : tokens.dropWhile Token.isLineEnd = t :: rest) (ha : accepts t.cls = true) :
      Reads grammar context left (.token accepts) tokens ⟨[], some t.span, rest⟩
  | leaf {context : Context} {left : Match} {kind : Kind} {accepts : TokenClass → Bool}
      {tokens rest : List Token} {t : Token} (ht : tokens.dropWhile Token.isLineEnd = t :: rest)
      (ha : accepts t.cls = true) :
      Reads grammar context left (.leaf kind accepts) tokens ⟨[⟨kind, none, t.span, []⟩], some t.span, rest⟩
  | statementEnd {context : Context} {left : Match} {t : Token} {rest : List Token}
      (ht : t.endsStatement = true) :
      Reads grammar context left .statementEnd (t :: rest) (.nothing rest)
  | sameLine {context : Context} {left : Match} {tokens : List Token} :
      Reads grammar context left .sameLine tokens (.nothing tokens)
  | ahead {context : Context} {left m : Match} {p : Pattern R} {tokens : List Token}
      (h : Reads grammar context left p tokens m) :
      Reads grammar context left (.ahead p) tokens (.nothing tokens)
  | notAhead {context : Context} {left : Match} {p : Pattern R} {tokens : List Token} :
      Reads grammar context left (.notAhead p) tokens (.nothing tokens)
  | within {context : Context} {left : Match} {holds : Context → Bool} {tokens : List Token}
      (h : holds context = true) :
      Reads grammar context left (.within holds) tokens (.nothing tokens)
  | rule {context : Context} {left m : Match} {r : R} {tokens : List Token}
      (h : Reads grammar context left (grammar r) tokens m) :
      Reads grammar context left (.rule r) tokens m
  | sequenceNil {context : Context} {left : Match} {tokens : List Token} :
      Reads grammar context left (.sequence []) tokens (.nothing tokens)
  | sequenceCons {context : Context} {left m later : Match} {p : Pattern R} {ps : List (Pattern R)}
      {tokens : List Token} (h : Reads grammar context left p tokens m)
      (hlater : Reads grammar context left (.sequence ps) m.rest later) :
      Reads grammar context left (.sequence (p :: ps)) tokens (m.followedBy later)
  | choice {context : Context} {left m : Match} {p : Pattern R} {ps : List (Pattern R)} {tokens : List Token}
      (hp : p ∈ ps) (h : Reads grammar context left p tokens m) :
      Reads grammar context left (.choice ps) tokens m
  | manyNil {context : Context} {left : Match} {p : Pattern R} {tokens : List Token} :
      Reads grammar context left (.many p) tokens (.nothing tokens)
  | manyCons {context : Context} {left m later : Match} {p : Pattern R} {tokens : List Token}
      (h : Reads grammar context left p tokens m) (hlater : Reads grammar context left (.many p) m.rest later) :
      Reads grammar context left (.many p) tokens (m.followedBy later)
  | node {context : Context} {left m : Match} {kind : Kind} {p : Pattern R} {tokens : List Token}
      (h : Reads grammar context left p tokens m) :
      Reads grammar context left (.node kind p) tokens (m.gather kind)
  | role {context : Context} {left m : Match} {r : Role} {p : Pattern R} {tokens : List Token}
      (h : Reads grammar context left p tokens m) :
      Reads grammar context left (.role r p) tokens { m with nodes := m.nodes.map (Node.inRole r) }
  | inside {context inner : Context} {left m : Match} {p : Pattern R} {tokens : List Token}
      (h : Reads grammar inner left p tokens m) :
      Reads grammar context left (.inside inner p) tokens m
  | provided {context : Context} {left m : Match} {holds : List Node → Bool} {p : Pattern R}
      {tokens : List Token} (h : Reads grammar context left p tokens m) (hm : holds m.nodes = true) :
      Reads grammar context left (.provided holds p) tokens m
  | operand {context : Context} {left : Match} {tokens : List Token} :
      Reads grammar context left .operand tokens { left with rest := tokens }
  | extendNot {context : Context} {left m : Match} {p extension : Pattern R} {tokens : List Token}
      (h : Reads grammar context left p tokens m) :
      Reads grammar context left (.extend p extension) tokens m
  | extend {context : Context} {left m extended : Match} {p extension : Pattern R} {tokens : List Token}
      (h : Reads grammar context left p tokens m) (he : Reads grammar context m extension m.rest extended) :
      Reads grammar context left (.extend p extension) tokens extended
  | extendManyNot {context : Context} {left m : Match} {p extension : Pattern R} {tokens : List Token}
      (h : Reads grammar context left p tokens m) :
      Reads grammar context left (.extendMany p extension) tokens m
  | extendMany {context : Context} {left m extended last : Match} {p extension : Pattern R}
      {tokens : List Token} (h : Reads grammar context left p tokens m)
      (he : Reads grammar context m extension m.rest extended)
      (hlast : Reads grammar context extended (.extendMany .operand extension) extended.rest last) :
      Reads grammar context left (.extendMany p extension) tokens last

variable {context : Context} {left m : Match} {p : Pattern R} {ps : List (Pattern R)} {tokens : List Token}

/-- What is read of a sequence, pattern after pattern, is a reading of it behind what was read before. -/
theorem reads_sequence_of_foldlM {fuel : Nat}
    (ih : ∀ {p : Pattern R} {tokens : List Token} {m : Match},
      read grammar fuel context left p tokens = some m → Reads grammar context left p tokens m)
    {before : Match}
    (h : ps.foldlM (fun m p => (read grammar fuel context left p m.rest).map m.followedBy) before = some m) :
    ∃ later, Reads grammar context left (.sequence ps) before.rest later ∧ m = before.followedBy later := by
  induction ps generalizing before with
  | nil =>
      obtain rfl := Option.some.inj h
      exact ⟨_, .sequenceNil, before.followedBy_nothing.symm⟩
  | cons p ps ihps =>
      rw [List.foldlM_cons] at h
      obtain ⟨next, hnext, h⟩ := Option.bind_eq_some_iff.1 h
      obtain ⟨first, hfirst, rfl⟩ := Option.map_eq_some_iff.1 hnext
      obtain ⟨later, hlater, rfl⟩ := ihps h
      exact ⟨_, .sequenceCons (ih hfirst) hlater, Match.followedBy_assoc _ _ _⟩

/-- **Every answer of the reader is a reading.** The induction is on the steps that the reader may spend. -/
theorem reads_of_read {fuel : Nat} (h : read grammar fuel context left p tokens = some m) :
    Reads grammar context left p tokens m := by
  induction fuel generalizing context left p tokens m with
  | zero => simp [read] at h
  | succ fuel ih =>
      cases p with
      | token accepts =>
          rw [read] at h
          split at h
          · cases h
          · rename_i t rest ht
            obtain ⟨ha, h⟩ := Option.ite_none_right_eq_some.1 h
            obtain rfl := Option.some.inj h
            exact .token ht ha
      | leaf kind accepts =>
          rw [read] at h
          split at h
          · cases h
          · rename_i t rest ht
            obtain ⟨ha, h⟩ := Option.ite_none_right_eq_some.1 h
            obtain rfl := Option.some.inj h
            exact .leaf ht ha
      | statementEnd =>
          cases tokens with
          | nil => simp [read] at h
          | cons t rest =>
              rw [read] at h
              obtain ⟨ht, h⟩ := Option.ite_none_right_eq_some.1 h
              obtain rfl := Option.some.inj h
              exact .statementEnd ht
      | sameLine =>
          rw [read] at h
          obtain ⟨-, h⟩ := Option.ite_none_left_eq_some.1 h
          obtain rfl := Option.some.inj h
          exact .sameLine
      | ahead p =>
          rw [read] at h
          obtain ⟨next, hnext, rfl⟩ := Option.map_eq_some_iff.1 h
          exact .ahead (ih hnext)
      | notAhead p =>
          rw [read] at h
          split at h
          · cases h
          · obtain rfl := Option.some.inj h
            exact .notAhead
      | within holds =>
          rw [read] at h
          obtain ⟨hc, h⟩ := Option.ite_none_right_eq_some.1 h
          obtain rfl := Option.some.inj h
          exact .within hc
      | rule r =>
          rw [read] at h
          exact .rule (ih h)
      | sequence ps =>
          rw [read] at h
          obtain ⟨later, hlater, rfl⟩ := reads_sequence_of_foldlM ih h
          rwa [Match.nothing_followedBy]
      | choice ps =>
          rw [read] at h
          obtain ⟨p, hp, h⟩ := List.exists_of_findSome?_eq_some h
          exact .choice hp (ih h)
      | many p =>
          rw [read] at h
          split at h
          · obtain rfl := Option.some.inj h
            exact .manyNil
          · rename_i first hfirst
            obtain ⟨later, hlater, rfl⟩ := Option.map_eq_some_iff.1 h
            exact .manyCons (ih hfirst) (ih hlater)
      | node kind p =>
          rw [read] at h
          obtain ⟨inner, hinner, rfl⟩ := Option.map_eq_some_iff.1 h
          exact .node (ih hinner)
      | role r p =>
          rw [read] at h
          obtain ⟨inner, hinner, rfl⟩ := Option.map_eq_some_iff.1 h
          exact .role (ih hinner)
      | inside inner p =>
          rw [read] at h
          exact .inside (ih h)
      | provided holds p =>
          rw [read] at h
          obtain ⟨h, hm⟩ := Option.filter_eq_some_iff.1 h
          exact .provided (ih h) hm
      | operand =>
          rw [read] at h
          obtain rfl := Option.some.inj h
          exact .operand
      | extend p extension =>
          rw [read] at h
          obtain ⟨first, hfirst, h⟩ := Option.bind_eq_some_iff.1 h
          obtain rfl := Option.some.inj h
          cases he : read grammar fuel context first extension first.rest with
          | none => exact .extendNot (ih hfirst)
          | some extended => exact .extend (ih hfirst) (ih he)
      | extendMany p extension =>
          rw [read] at h
          obtain ⟨first, hfirst, h⟩ := Option.bind_eq_some_iff.1 h
          split at h
          · obtain rfl := Option.some.inj h
            exact .extendManyNot (ih hfirst)
          · rename_i extended he
            exact .extendMany (ih hfirst) (ih he) (ih h)

/-! ### What is left -/

/-- The tokens behind the first that is no line end are the end of the tokens. -/
theorem suffix_of_dropWhile_isLineEnd {t : Token} {rest : List Token}
    (h : tokens.dropWhile Token.isLineEnd = t :: rest) : t :: rest <:+ tokens :=
  h ▸ List.dropWhile_suffix _

/-- **What is left** of the tokens is the end of them. -/
theorem Reads.rest_suffix (h : Reads grammar context left p tokens m) : m.rest <:+ tokens := by
  induction h with
  | token ht ha => exact (List.suffix_cons _ _).trans (suffix_of_dropWhile_isLineEnd ht)
  | leaf ht ha => exact (List.suffix_cons _ _).trans (suffix_of_dropWhile_isLineEnd ht)
  | statementEnd ht => exact List.suffix_cons _ _
  | sameLine => exact List.suffix_rfl
  | ahead h ih => exact List.suffix_rfl
  | notAhead => exact List.suffix_rfl
  | within h => exact List.suffix_rfl
  | rule h ih => exact ih
  | sequenceNil => exact List.suffix_rfl
  | sequenceCons h hlater ih ihlater => exact ihlater.trans ih
  | choice hp h ih => exact ih
  | manyNil => exact List.suffix_rfl
  | manyCons h hlater ih ihlater => exact ihlater.trans ih
  | node h ih => exact ih
  | role h ih => exact ih
  | inside h ih => exact ih
  | provided h hm ih => exact ih
  | operand => exact List.suffix_rfl
  | extendNot h ih => exact ih
  | extend h he ih ihe => exact ihe.trans ih
  | extendManyNot h ih => exact ih
  | extendMany h he hlast ih ihe ihlast => exact (ihlast.trans ihe).trans ih

/-! ### The kinds of nodes that are read -/

mutual

/-- The kinds of the nodes that a pattern makes, without those that its rules make. -/
def nodeKinds : Pattern R → List Kind
  | token _ | statementEnd | sameLine | ahead _ | notAhead _ | within _ | rule _ | operand => []
  | leaf kind _ => [kind]
  | node kind _ => [kind]
  | sequence ps | choice ps => nodeKindsAll ps
  | many p | role _ p | inside _ p | provided _ p => nodeKinds p
  | extend p extension | extendMany p extension => nodeKinds p ++ nodeKinds extension

/-- The kinds of the nodes that several patterns make. -/
def nodeKindsAll : List (Pattern R) → List Kind
  | [] => []
  | p :: ps => nodeKinds p ++ nodeKindsAll ps

end

/-- The kinds that one of several patterns makes are among those that all of them make. -/
theorem nodeKinds_subset_of_mem (hp : p ∈ ps) : nodeKinds p ⊆ nodeKindsAll ps := by
  induction ps with
  | nil => cases hp
  | cons q qs ih =>
      rw [nodeKindsAll]
      rcases List.mem_cons.1 hp with rfl | hp
      · exact List.subset_append_left _ _
      · exact List.Subset.trans (ih hp) (List.subset_append_right _ _)

/-- **The kinds that are read.** If the rules make only kinds with a property, and so does the pattern, then
every node that is read is of such a kind, provided that what is being extended is. -/
theorem Reads.kind_of_mem {property : Kind → Prop}
    (hgrammar : ∀ r, ∀ kind ∈ nodeKinds (grammar r), property kind)
    (h : Reads grammar context left p tokens m) (hp : ∀ kind ∈ nodeKinds p, property kind)
    (hleft : ∀ n ∈ left.nodes, property n.kind) : ∀ n ∈ m.nodes, property n.kind := by
  induction h with
  | token | statementEnd | sameLine | ahead | notAhead | within | sequenceNil | manyNil =>
      simp [Match.nothing]
  | leaf ht ha =>
      intro n hn
      obtain rfl := List.mem_singleton.1 hn
      exact hp _ (by simp [nodeKinds])
  | rule h ih => exact ih (hgrammar _) hleft
  | sequenceCons h hlater ih ihlater =>
      rw [nodeKinds, nodeKindsAll, List.forall_mem_append] at hp
      exact List.forall_mem_append.2 ⟨ih hp.1 hleft, ihlater (by simpa [nodeKinds] using hp.2) hleft⟩
  | choice hmem h ih =>
      refine ih (fun kind hkind => hp kind ?_) hleft
      rw [nodeKinds]
      exact nodeKinds_subset_of_mem hmem hkind
  | manyCons h hlater ih ihlater =>
      exact List.forall_mem_append.2 ⟨ih (by simpa [nodeKinds] using hp) hleft, ihlater hp hleft⟩
  | node h ih =>
      intro n hn
      obtain ⟨span, -, rfl⟩ := List.mem_map.1 hn
      exact hp _ (by simp [nodeKinds])
  | role h ih =>
      intro n hn
      obtain ⟨inner, hinner, rfl⟩ := List.mem_map.1 hn
      exact ih (by simpa [nodeKinds] using hp) hleft inner hinner
  | inside h ih => exact ih (by simpa [nodeKinds] using hp) hleft
  | provided h hm ih => exact ih (by simpa [nodeKinds] using hp) hleft
  | operand => exact hleft
  | extendNot h ih =>
      rw [nodeKinds, List.forall_mem_append] at hp
      exact ih hp.1 hleft
  | extend h he ih ihe =>
      rw [nodeKinds, List.forall_mem_append] at hp
      exact ihe hp.2 (ih hp.1 hleft)
  | extendManyNot h ih =>
      rw [nodeKinds, List.forall_mem_append] at hp
      exact ih hp.1 hleft
  | extendMany h he hlast ih ihe ihlast =>
      rw [nodeKinds, List.forall_mem_append] at hp
      exact ihlast (by simpa [nodeKinds] using hp.2) (ihe hp.2 (ih hp.1 hleft))

/-! ### Where a node was read -/

/-- Every node of a sequence was read by one of its patterns, further on in the tokens. -/
theorem Reads.exists_of_mem_sequence {n : Node} (h : Reads grammar context left (.sequence ps) tokens m)
    (hn : n ∈ m.nodes) :
    ∃ p ∈ ps, ∃ later inner, later <:+ tokens ∧ Reads grammar context left p later inner ∧ n ∈ inner.nodes := by
  induction ps generalizing tokens m with
  | nil =>
      cases h
      cases hn
  | cons p ps ih =>
      cases h with
      | sequenceCons hfirst hlater =>
          rcases List.mem_append.1 hn with hn | hn
          · exact ⟨p, List.mem_cons_self, _, _, List.suffix_rfl, hfirst, hn⟩
          · obtain ⟨q, hq, later, inner, hsuffix, hinner, hmem⟩ := ih hlater hn
            exact ⟨q, List.mem_cons_of_mem p hq, later, inner, hsuffix.trans hfirst.rest_suffix, hinner, hmem⟩

/-- Every node of a repeated pattern was read by the pattern, further on in the tokens. -/
theorem Reads.exists_of_mem_many {n : Node} (h : Reads grammar context left (.many p) tokens m)
    (hn : n ∈ m.nodes) :
    ∃ later inner, later <:+ tokens ∧ Reads grammar context left p later inner ∧ n ∈ inner.nodes := by
  generalize hq : Pattern.many p = q at h
  induction h with
  | manyNil => cases hn
  | manyCons h hlater ih ihlater =>
      cases hq
      rcases List.mem_append.1 hn with hn | hn
      · exact ⟨_, _, List.suffix_rfl, h, hn⟩
      · obtain ⟨later, inner, hsuffix, hinner, hmem⟩ := ihlater hn rfl
        exact ⟨later, inner, hsuffix.trans h.rest_suffix, hinner, hmem⟩
  | _ => cases hq

end Pattern

end SuiteReport.Go
