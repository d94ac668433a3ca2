import SuiteReport.Proofs.Source.Words
/-!
# The nodes of a source

Whatever the grammar, each node that is read is of a kind that some pattern makes nodes of, and covers the bytes from a
token to a token. So what is so of the bytes of every token, and of the hull of two spans if it is so of both, is so of
the bytes of every node.

## Main definitions

* `Pattern.allKinds`: the kinds of the nodes that a pattern makes at any depth.
* `Match.Made`: what is so of the kinds and the bytes of all nodes that are read.

## Main results

* `Pattern.Reads.made`: what is read, by what the patterns make and by the tokens.
* `Source.every_made`: the nodes of a source, none of which is a comment.
-/

namespace SuiteReport.Go

variable {K : Kind → Prop} {P : Span → Prop} {m later : Match} {tokens : List Token}

/-- Whether the nodes of a match, at any depth, are of kinds with one property and cover bytes with another, and so
does the match. -/
structure Match.Made (K : Kind → Prop) (P : Span → Prop) (m : Match) : Prop where
  /-- All nodes have the properties. -/
  nodes : ∀ n ∈ m.nodes, n.Every fun n => K n.kind ∧ P n.span
  /-- The bytes of the match have theirs. -/
  span : ∀ s ∈ m.span, P s

theorem Match.Made.nothing : (Match.nothing tokens).Made K P := ⟨by simp [Match.nothing], by simp [Match.nothing]⟩

/-- One match behind the other covers the hull of both. -/
theorem Match.Made.followedBy (hull : ∀ s t, P s → P t → P (s.hull t)) (hm : m.Made K P) (hlater : later.Made K P) :
    (m.followedBy later).Made K P where
  nodes := List.forall_mem_append.2 ⟨hm.nodes, hlater.nodes⟩
  span := by
    intro s hs
    have first := hm.span
    have second := hlater.span
    rw [Match.followedBy] at hs
    cases hfirst : m.span with
    | none =>
        rw [hfirst] at hs
        exact second s hs
    | some s₁ =>
        rw [hfirst] at hs first
        cases hsecond : later.span with
        | none =>
            rw [hsecond] at hs
            exact first s hs
        | some s₂ =>
            rw [hsecond] at hs second
            obtain rfl := Option.some.inj hs
            exact hull s₁ s₂ (first s₁ rfl) (second s₂ rfl)

namespace Pattern

variable {R : Type} {grammar : R → Pattern R} {context : Context} {left : Match} {p : Pattern R}
  {ps : List (Pattern R)}

mutual

/-- The kinds of the nodes that a pattern makes, at any depth, without those that its rules make. -/
def allKinds : Pattern R → List Kind
  | token _ | statementEnd | sameLine | ahead _ | notAhead _ | within _ | rule _ | operand => []
  | leaf kind _ => [kind]
  | node kind p => kind :: allKinds p
  | sequence ps | choice ps => allKindsAll ps
  | many p | role _ p | inside _ p | provided _ p => allKinds p
  | extend p extension | extendMany p extension => allKinds p ++ allKinds extension

/-- The kinds of the nodes that several patterns make, at any depth. -/
def allKindsAll : List (Pattern R) → List Kind
  | [] => []
  | p :: ps => allKinds p ++ allKindsAll ps

end

theorem allKinds_subset_of_mem (hp : p ∈ ps) : allKinds p ⊆ allKindsAll ps := by
  induction ps with
  | nil => cases hp
  | cons q qs ih =>
      rw [allKindsAll]
      rcases List.mem_cons.1 hp with rfl | hp
      · exact List.subset_append_left _ _
      · exact List.Subset.trans (ih hp) (List.subset_append_right _ _)

/-- **What is read** is of kinds that the patterns make, and covers what tokens make up. The induction is on the
reading; what is being extended is read already. -/
theorem Reads.made (hull : ∀ s t, P s → P t → P (s.hull t)) (hgrammar : ∀ r, ∀ kind ∈ allKinds (grammar r), K kind)
    (h : Reads grammar context left p tokens m) (hp : ∀ kind ∈ allKinds p, K kind) (hleft : left.Made K P)
    (htokens : ∀ t ∈ tokens, t.isLineEnd = false → P t.span) : m.Made K P := by
  have first {tokens rest : List Token} {t : Token} (htokens : ∀ t ∈ tokens, t.isLineEnd = false → P t.span)
      (ht : tokens.dropWhile Token.isLineEnd = t :: rest) : P t.span := by
    have solid := List.head?_dropWhile_not Token.isLineEnd tokens
    rw [ht] at solid
    exact htokens t ((suffix_of_dropWhile_isLineEnd ht).subset List.mem_cons_self) (by simpa using solid)
  induction h with
  | statementEnd | sameLine | ahead | notAhead | within | sequenceNil | manyNil => exact .nothing
  | token ht => exact ⟨by simp, by simpa using first htokens ht⟩
  | leaf ht =>
      refine ⟨fun n hn => ?_, by simpa using first htokens ht⟩
      obtain rfl := List.mem_singleton.1 hn
      exact Node.every_iff.2 ⟨⟨hp _ (by simp [allKinds]), first htokens ht⟩, by simp⟩
  | rule _ ih => exact ih (hgrammar _) hleft htokens
  | choice hmem _ ih =>
      rw [allKinds] at hp
      exact ih (fun kind hkind => hp kind (allKinds_subset_of_mem hmem hkind)) hleft htokens
  | inside _ ih | provided _ _ ih => exact ih (by rwa [allKinds] at hp) hleft htokens
  | sequenceCons h _ ih ihlater =>
      rw [allKinds, allKindsAll, List.forall_mem_append] at hp
      have behind := fun t ht => htokens t (h.rest_suffix.subset ht)
      exact (ih hp.1 hleft htokens).followedBy hull (ihlater (by rw [allKinds]; exact hp.2) hleft behind)
  | manyCons h _ ih ihlater =>
      have behind := fun t ht => htokens t (h.rest_suffix.subset ht)
      exact (ih (by rwa [allKinds] at hp) hleft htokens).followedBy hull (ihlater hp hleft behind)
  | node _ ih =>
      rw [allKinds, List.forall_mem_cons] at hp
      have inner := ih hp.2 hleft htokens
      refine ⟨fun n hn => ?_, inner.span⟩
      obtain ⟨span, hspan, rfl⟩ := List.mem_map.1 hn
      exact Node.every_iff.2 ⟨⟨hp.1, inner.span span (Option.mem_toList.1 hspan)⟩, inner.nodes⟩
  | role _ ih =>
      have inner := ih (by rwa [allKinds] at hp) hleft htokens
      refine ⟨fun n hn => ?_, inner.span⟩
      obtain ⟨plain, hplain, rfl⟩ := List.mem_map.1 hn
      exact (inner.nodes plain hplain).inRole (inner.nodes plain hplain).root
  | operand => exact ⟨hleft.nodes, hleft.span⟩
  | extendNot _ ih | extendManyNot _ ih =>
      rw [allKinds, List.forall_mem_append] at hp
      exact ih hp.1 hleft htokens
  | extend h _ ih ihe =>
      rw [allKinds, List.forall_mem_append] at hp
      exact ihe hp.2 (ih hp.1 hleft htokens) fun t ht => htokens t (h.rest_suffix.subset ht)
  | extendMany h he _ ih ihe ihlast =>
      rw [allKinds, List.forall_mem_append] at hp
      have behind := fun t ht => htokens t (h.rest_suffix.subset ht)
      exact ihlast (by simpa [allKinds] using hp.2) (ihe hp.2 (ih hp.1 hleft htokens) behind)
        fun t ht => behind t (he.rest_suffix.subset ht)

end Pattern

/-- No pattern of the grammar makes comments. -/
theorem Grammar.ne_comment_of_mem_allKinds (r : Rule) : ∀ kind ∈ Pattern.allKinds (pattern r), kind ≠ .comment := by
  cases r <;> decide

/-- **The nodes of a source** are no comments, and cover what tokens make up. -/
theorem Source.every_made {items : List Node} (hull : ∀ s t, P s → P t → P (s.hull t))
    (htokens : ∀ t ∈ tokens, t.isLineEnd = false → P t.span) (hitems : items? tokens = some items) :
    ∀ item ∈ items, item.Every fun n => n.kind ≠ .comment ∧ P n.span := by
  obtain ⟨m, hm, h⟩ := Option.bind_eq_some_iff.1 hitems
  obtain ⟨_, -, h⟩ := Option.bind_eq_some_iff.1 h
  obtain rfl := Option.some.inj h
  have sourceItems : ∀ kind ∈ Pattern.allKinds Grammar.sourceItems, kind ≠ .comment := by decide
  exact ((Pattern.reads_of_read hm).made hull Grammar.ne_comment_of_mem_allKinds sourceItems .nothing htokens).nodes

end SuiteReport.Go
