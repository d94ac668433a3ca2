import Mathlib.Data.List.Nodup
import SuiteReport.Proofs.CommentRun
import SuiteReport.Proofs.Source.Tree
/-!
# Comments and their blocks

Every comment of a source belongs to one block. The comments are gathered from the tree, where each stands in the
innermost node that it lies inside, and come out in the order of the source. The blocks cut this row of comments into
runs: where two comments follow each other it depends on nothing but the bytes around them if the second one belongs to
the block of the first. So the blocks lie behind one another as the comments do.

## Main definitions

* `Node.comments`: the comments in a tree.
* `InOrder`: whether comments lie behind one another inside a content.
* `Span.Clear`: whether comments lie before, inside or behind the bytes of a node.

## Main results

* `Node.comments_weave`: the comments that were put into a tree are those in it.
* `Source.comments_tree`: the comments in the tree of a source are all its comments.
* `exists_run_iff`: where a row is cut.
* `blocks_partition`: the blocks of the comments in a tree.
-/

namespace SuiteReport

/-- Where a row without repetitions is cut: of two elements that follow each other, both are in one run exactly if they
are related. -/
theorem exists_run_iff {α : Type} {r : α → α → Bool} {l : List α} (hl : l.Nodup) :
    l.IsChain fun a b => (∃ run ∈ l.splitBy r, a ∈ run ∧ b ∈ run) ↔ r a b = true := by
  have whole := List.flatten_splitBy r l
  have cut := List.isChain_getLast_head_splitBy r l
  have inside {run : List α} (hrun : run ∈ l.splitBy r) : run.IsChain fun a b => r a b = true :=
    List.isChain_of_mem_splitBy hrun
  have filled := List.nil_notMem_splitBy r l
  generalize l.splitBy r = runs at whole cut inside filled
  subst whole
  obtain ⟨-, apart⟩ := List.nodup_flatten.1 hl
  rw [List.isChain_flatten filled]
  refine ⟨fun run hrun => ?_, ?_⟩
  · exact (inside hrun).imp_of_mem_imp fun a b ha hb hr => iff_of_true ⟨run, hrun, ha, hb⟩ hr
  · rw [List.isChain_iff_forall_rel_of_append_cons_cons] at cut ⊢
    intro run next before after hsplit a ha b hb
    obtain ⟨hne, hne', hr⟩ := cut hsplit
    obtain rfl : run.getLast hne = a := Option.some.inj ((List.getLast?_eq_some_getLast hne).symm.trans ha)
    obtain rfl : next.head hne' = b := Option.some.inj ((List.head?_eq_some_head hne').symm.trans hb)
    refine iff_of_false ?_ (by simp [hr])
    rintro ⟨both, hboth, hlast, hfirst⟩
    have same {other : List α} (hother : other ∈ runs) {x : α} (hx : x ∈ both) (hx' : x ∈ other) : both = other := by
      have : Std.Symm (@List.Disjoint α) := ⟨fun _ _ => List.disjoint_symm⟩
      by_contra hdiffer
      exact apart.forall hboth hother hdiffer hx hx'
    have first : both = run := same (by simp [hsplit]) hlast (List.getLast_mem hne)
    have second : both = next := same (by simp [hsplit]) hfirst (List.head_mem hne')
    rw [hsplit, ← first, ← second] at apart
    obtain ⟨-, apart, -⟩ := List.pairwise_append.1 apart
    exact List.rel_of_pairwise_cons apart List.mem_cons_self hlast hlast

/-- Comments inside a content that lie behind one another. -/
structure InOrder (content : Bytes) (spans : List Span) : Prop where
  /-- No comment goes beyond the content. -/
  inside : ∀ c ∈ spans, c.start ≤ c.stop ∧ c.stop ≤ content.length
  /-- Each comment ends before the next one begins, and the beginnings grow. -/
  apart : spans.Pairwise fun c d => c.stop ≤ d.start ∧ c.start < d.start

/-- No two of them are the same. -/
theorem InOrder.nodup {content : Bytes} {spans : List Span} (h : InOrder content spans) : spans.Nodup :=
  h.apart.imp fun {c d} hcd (heq : c = d) => Nat.lt_irrefl _ (heq ▸ hcd.2)

namespace Go

/-! ### The comments in a tree -/

namespace Node

mutual

/-- The bytes that the comments in a tree cover, in the order of the source. -/
def comments : Node → List Span
  | ⟨kind, _, span, children⟩ => if kind = .comment then [span] else commentsAll children

/-- The bytes that the comments in several trees cover. -/
def commentsAll : List Node → List Span
  | [] => []
  | n :: later => n.comments ++ commentsAll later

end

theorem commentsAll_append (ns ms : List Node) : commentsAll (ns ++ ms) = commentsAll ns ++ commentsAll ms := by
  induction ns with
  | nil => rfl
  | cons n ns ih => rw [List.cons_append, commentsAll, commentsAll, ih, List.append_assoc]

theorem commentsAll_map_ofComment (spans : List Span) : commentsAll (spans.map ofComment) = spans := by
  induction spans with
  | nil => rfl
  | cons span spans ih =>
      rw [List.map_cons, commentsAll, ih, ofComment, comments, if_pos rfl, List.singleton_append]

end Node

/-- Whether each of some comments lies before the bytes of a node, inside them or behind them. -/
structure Clear (spans : List Span) (s : Span) : Prop where
  /-- The bytes are in order. -/
  ordered : s.start ≤ s.stop
  /-- No comment lies across an end of them. -/
  clear : ∀ c ∈ spans, c.stop ≤ s.start ∨ s.covers c = true ∨ s.stop ≤ c.start

section Weaving

variable {spans : List Span}

theorem covers_iff {s t : Span} : s.covers t = true ↔ s.start ≤ t.start ∧ t.stop ≤ s.stop := by
  simp [Span.covers]

/-- A comment that does not lie across the ends of two stretches of bytes does not lie across those of the hull. -/
theorem Clear.hull (s t : Span) (hs : Clear spans s) (ht : Clear spans t) : Clear spans (s.hull t) where
  ordered := by
    have := hs.ordered
    simp only [Span.hull]
    omega
  clear := by
    intro c hc
    have := hs.ordered
    have := ht.ordered
    have first := hs.clear c hc
    have second := ht.clear c hc
    rw [covers_iff] at first second ⊢
    simp only [Span.hull]
    omega

theorem Clear.of_sublist {inner : List Span} {s : Span} (h : Clear spans s) (hinner : inner.Sublist spans) :
    Clear inner s := ⟨h.ordered, fun c hc => h.clear c (hinner.subset hc)⟩

/-- The comments before some bytes, those inside them and those behind them are all, and in their order. -/
theorem Clear.append_filter {s : Span} (h : Clear spans s) (hfilled : ∀ c ∈ spans, c.start < c.stop)
    (hapart : spans.Pairwise fun c d => c.stop ≤ d.start) :
    (spans.filter fun c => c.stop ≤ s.start) ++
      (spans.filter s.covers ++ spans.filter fun c => s.stop ≤ c.start) = spans := by
  induction spans with
  | nil => rfl
  | cons c later ih =>
      obtain ⟨hnext, hapart⟩ := List.pairwise_cons.1 hapart
      obtain ⟨hc, hfilled⟩ := List.forall_mem_cons.1 hfilled
      have rest := ih (h.of_sublist (List.sublist_cons_self c later)) hfilled hapart
      have ordered := h.ordered
      -- Behind a comment that is not before the bytes there is none that is, and likewise inside them.
      have noneBefore (hlate : s.start ≤ c.start) : (later.filter fun c => c.stop ≤ s.start) = [] := by
        refine List.filter_eq_nil_iff.2 fun d hd => ?_
        have := hnext d hd
        have := hfilled d hd
        simp only [decide_eq_true_eq]
        omega
      have noneInside (hlate : s.stop ≤ c.start) : later.filter s.covers = [] := by
        refine List.filter_eq_nil_iff.2 fun d hd => ?_
        have := hnext d hd
        have := hfilled d hd
        rw [covers_iff]
        omega
      rcases h.clear c List.mem_cons_self with hbefore | hinside | hbehind
      · have notInside : ¬ s.covers c = true := by
          rw [covers_iff]
          omega
        have notBehind : ¬ s.stop ≤ c.start := by omega
        simp [hbefore, notInside, notBehind, rest]
      · obtain ⟨hstart, hstop⟩ := covers_iff.1 hinside
        have notBefore : ¬ c.stop ≤ s.start := by omega
        have notBehind : ¬ s.stop ≤ c.start := by omega
        rw [noneBefore hstart, List.nil_append] at rest
        simp [notBefore, hinside, notBehind, noneBefore hstart, rest]
      · have notBefore : ¬ c.stop ≤ s.start := by omega
        have notInside : ¬ s.covers c = true := by
          rw [covers_iff]
          omega
        rw [noneBefore (ordered.trans hbehind), noneInside hbehind, List.nil_append, List.nil_append] at rest
        simp [notBefore, notInside, hbehind, noneBefore (ordered.trans hbehind), noneInside hbehind, rest]

/-- Whether the nodes of a tree are no comments, and no comment lies across the ends of one of them. -/
abbrev Node.Bare (spans : List Span) (n : Node) : Prop := n.Every fun m => m.kind ≠ .comment ∧ Clear spans m.span

mutual

/-- **The comments that are put into a tree** are the comments in it. -/
theorem Node.comments_weave (hfilled : ∀ c ∈ spans, c.start < c.stop)
    (hapart : spans.Pairwise fun c d => c.stop ≤ d.start) :
    ∀ {n : Node} {inner : List Span}, n.Bare spans → inner.Sublist spans → (n.weave inner).comments = inner
  | ⟨kind, role, span, children⟩, inner, h, hinner => by
      rw [Node.weave, Node.comments, if_neg h.root.1]
      exact Node.commentsAll_weaveAll hfilled hapart (fun child hchild => h.child hchild) hinner

/-- The comments that are put into several trees, and between them, are those in them. -/
theorem Node.commentsAll_weaveAll (hfilled : ∀ c ∈ spans, c.start < c.stop)
    (hapart : spans.Pairwise fun c d => c.stop ≤ d.start) :
    ∀ {ns : List Node} {inner : List Span}, (∀ n ∈ ns, n.Bare spans) → inner.Sublist spans →
      Node.commentsAll (Node.weaveAll inner ns) = inner
  | [], inner, _, _ => Node.commentsAll_map_ofComment inner
  | n :: later, inner, h, hinner => by
      obtain ⟨hn, hlater⟩ := List.forall_mem_cons.1 h
      have part (p : Span → Bool) : (inner.filter p).Sublist spans := List.filter_sublist.trans hinner
      rw [Node.weaveAll_cons, Node.commentsAll_append, Node.commentsAll_map_ofComment, Node.commentsAll,
        Node.comments_weave hfilled hapart hn (part _), Node.commentsAll_weaveAll hfilled hapart hlater (part _)]
      exact (hn.root.2.of_sublist hinner).append_filter (fun c hc => hfilled c (hinner.subset hc))
        (hapart.sublist hinner)

end

end Weaving

section Source

variable {content : Bytes} {lexemes : Lexemes}

/-- Comments are read one behind the other. -/
theorem Lexemes.Scans.pairwise_comments {offset : Nat} {gs : List Glyph} (h : Scans offset gs lexemes) :
    lexemes.comments.Pairwise fun c d => c.stop ≤ d.start := by
  induction h with
  | nil => exact .nil
  | @cons offset count g gs lexeme later hnext hlater ih =>
      cases lexeme with
      | blank | token => exact ih
      | comment => exact List.pairwise_cons.2 ⟨fun d hd => (hlater.le_start_of_mem hd).1, ih⟩

/-- A comment of a source has bytes. -/
theorem Lexemes.start_lt_stop (h : ofBytes? content = some lexemes) :
    ∀ c ∈ lexemes.comments, c.start < c.stop := by
  intro c hc
  have has : lexemes.Has .comment c := hc
  obtain ⟨p, -, hp, -⟩ := exists_mark h has (by simp)
  exact Nat.lt_of_le_of_lt hp.1 hp.2

/-- **The comments of a source** lie behind one another inside it. -/
theorem Lexemes.inOrder_comments (h : ofBytes? content = some lexemes) : InOrder content lexemes.comments where
  inside := by
    intro c hc
    have has : lexemes.Has .comment c := hc
    exact stop_le_length h has
  apart := by
    obtain ⟨offset, hscans⟩ := exists_scans h
    refine hscans.pairwise_comments.imp_of_mem fun {c d} hc hd hle => ⟨hle, ?_⟩
    exact Nat.lt_of_lt_of_le (start_lt_stop h c hc) hle

/-- No comment of a source lies across an end of a token. -/
theorem Lexemes.clear_of_mem_tokens (h : ofBytes? content = some lexemes) {t : Token} (ht : t ∈ lexemes.tokens) :
    Clear lexemes.comments t.span := by
  have token : lexemes.Has (.token t.cls) t.span := ht
  refine ⟨(stop_le_length h token).1, fun c hc => ?_⟩
  have comment : lexemes.Has .comment c := hc
  obtain ⟨offset, hscans⟩ := exists_scans h
  rcases hscans.apart rfl token comment with rfl | hbehind | hbefore
  · exact .inr (.inl (covers_iff.2 ⟨Nat.le_refl _, Nat.le_refl _⟩))
  · exact .inr (.inr hbehind)
  · exact .inl hbefore

/-- **The comments in the tree of a source** are all its comments, in their order. -/
theorem Source.comments_tree {f : Source} (h : Source.parse? content = some f) :
    f.tree.comments = f.comments ∧ InOrder content f.comments := by
  obtain ⟨lexemes, hlexemes, h⟩ := Option.bind_eq_some_iff.1 h
  obtain ⟨items, hitems, h⟩ := Option.bind_eq_some_iff.1 h
  obtain rfl := Option.some.inj h
  refine ⟨?_, Lexemes.inOrder_comments hlexemes⟩
  have bare := every_made Clear.hull (fun t ht _ => Lexemes.clear_of_mem_tokens hlexemes ht) hitems
  have apart := (Lexemes.inOrder_comments hlexemes).apart.imp fun hcd => hcd.1
  rw [Node.weave, Node.comments, if_neg (by decide)]
  exact Node.commentsAll_weaveAll (Lexemes.start_lt_stop hlexemes) apart bare (List.Sublist.refl _)

end Source

/-! ### The blocks of a tree -/

namespace CommentBlock

variable {content : Bytes} {runs : List (List Span)} {blocks : List CommentBlock} {run : List Span} {b : CommentBlock}

/-- Whether there is nothing but white space between two offsets, and at most one line feed. -/
theorem adjacent_eq_true_iff {stop start : Nat} :
    adjacent content stop start = true ↔ ∃ gap, content.extract? ⟨stop, start⟩ = some gap ∧
      (∀ b ∈ gap, Bytes.isBlank b = true) ∧ gap.newlines ≤ 1 := by
  rw [adjacent]
  cases content.extract? ⟨stop, start⟩ <;> simp

/-- A block with comments ends in the place of its last byte. -/
theorem IsBlockOf.stop_eq (h : IsBlockOf content run b) (hne : run ≠ []) :
    b.stop = Position.ofOffset content b.span.stop := by
  obtain ⟨hspan, hstop⟩ := h.stop _ (List.getLast?_eq_some_getLast hne)
  rw [hspan, hstop]

/-- A trailing block is made from one comment, as no comment goes on where code stands before the one before it. -/
theorem IsBlockOf.length_eq_one (h : IsBlockOf content run b) (hne : run ≠ [])
    (hrun : run.IsChain fun c d => goesOn content c d = true) (htrailing : b.trailing = true) : run.length = 1 := by
  match run with
  | [] => exact absurd rfl hne
  | [c] => rfl
  | c :: d :: later =>
      rw [h.trailing c rfl] at htrailing
      have goes := hrun.rel
      rw [goesOn, htrailing] at goes
      cases goes

/-- A block that is made from comments begins where one of them does. -/
theorem exists_start_of_mem (h : List.Forall₂ (fun run b => run ≠ [] ∧ IsBlockOf content run b) runs blocks)
    (hb : b ∈ blocks) : ∃ c ∈ runs.flatten, b.span.start = c.start := by
  induction h with
  | nil => cases hb
  | @cons run first runs blocks hfirst hlater ih =>
      rw [List.flatten_cons]
      rcases List.mem_cons.1 hb with rfl | hb
      · obtain ⟨hne, hfirst⟩ := hfirst
        exact ⟨_, List.mem_append_left _ (List.head_mem hne), hfirst.start _ (List.head?_eq_some_head hne)⟩
      · obtain ⟨c, hc, hstart⟩ := ih hb
        exact ⟨c, List.mem_append_right _ hc, hstart⟩

/-- **Blocks lie behind one another** if the comments do that they are made from. -/
theorem inOrder_of_forall₂ (h : List.Forall₂ (fun run b => run ≠ [] ∧ IsBlockOf content run b) runs blocks)
    (hruns : InOrder content runs.flatten) : InOrder content (blocks.map (·.span)) := by
  induction h with
  | nil => exact hruns
  | @cons run b runs blocks hfirst hlater ih =>
      obtain ⟨hne, hb⟩ := hfirst
      obtain ⟨c, later, rfl⟩ := List.exists_cons_of_ne_nil hne
      rw [List.flatten_cons] at hruns
      obtain ⟨hrun, hrest, hacross⟩ := List.pairwise_append.1 hruns.apart
      have rest := ih ⟨fun d hd => hruns.inside d (List.mem_append_right _ hd), hrest⟩
      have hlast := List.getLast_mem hne
      have start := hb.start c rfl
      have stop := (hb.stop _ (List.getLast?_eq_some_getLast hne)).1
      have first := hruns.inside c (List.mem_append_left _ List.mem_cons_self)
      have last := hruns.inside _ (List.mem_append_left _ hlast)
      refine ⟨List.forall_mem_cons.2 ⟨?_, rest.inside⟩, List.pairwise_cons.2 ⟨?_, rest.apart⟩⟩
      · rw [start, stop]
        refine ⟨?_, last.2⟩
        rcases List.mem_cons.1 hlast with heq | hmem
        · rw [heq]
          exact first.1
        · have := (List.rel_of_pairwise_cons hrun hmem).2
          omega
      · intro s hs
        obtain ⟨b', hb', rfl⟩ := List.mem_map.1 hs
        obtain ⟨d, hd, hstart⟩ := exists_start_of_mem hlater hb'
        rw [start, stop, hstart]
        exact ⟨(hacross _ hlast d hd).1, (hacross c List.mem_cons_self d hd).2⟩

end CommentBlock

/-- **Blocks partition the comments of a tree** if these lie behind one another inside the content. The comments fall
into runs, one for each block and in the order of the blocks, which together are all comments, each once and in order.
Of two comments that follow each other, both are in one run exactly if nothing shows before either of them on its line
and between them there is only white space with at most one line feed. A block extends from the beginning of the first
comment of its run to the end of the last one, and knows the position of this end; its text is made from those of the
comments, one below the other; and if it is trailing it has one comment. So the blocks lie behind one another, too. -/
theorem blocks_partition {content : Bytes} {tree : Node} (h : InOrder content tree.comments) :
    ∃ runs : List (List Span), runs.flatten = tree.comments ∧
      (∀ before c d after, tree.comments = before ++ c :: d :: after →
        ((∃ run ∈ runs, c ∈ run ∧ d ∈ run) ↔
          CommentBlock.followsCode content c.start = false ∧ CommentBlock.followsCode content d.start = false ∧
            ∃ gap, content.extract? ⟨c.stop, d.start⟩ = some gap ∧ (∀ b ∈ gap, Bytes.isBlank b = true) ∧
              gap.newlines ≤ 1)) ∧
      List.Forall₂ (fun run b => run ≠ [] ∧ CommentBlock.IsBlockOf content run b ∧
          b.stop = Position.ofOffset content b.span.stop ∧ (b.trailing = true → run.length = 1))
        runs (CommentBlock.blocks content tree.comments) ∧
      InOrder content ((CommentBlock.blocks content tree.comments).map (·.span)) := by
  have whole := List.flatten_splitBy (CommentBlock.goesOn content) tree.comments
  have chained : ∀ run ∈ tree.comments.splitBy (CommentBlock.goesOn content),
      run ≠ [] ∧ run.IsChain fun c d => CommentBlock.goesOn content c d = true := fun run hrun =>
    ⟨ne_of_mem_of_not_mem hrun (List.nil_notMem_splitBy _ _), List.isChain_of_mem_splitBy hrun⟩
  have runs := (List.forall₂_and_left _ _).2 ⟨chained, CommentBlock.isBlockOf_blocks content tree.comments⟩
  refine ⟨_, whole, ?_, ?_, ?_⟩
  · intro before c d after hsplit
    rw [List.isChain_iff_forall_rel_of_append_cons_cons.1 (exists_run_iff h.nodup) hsplit, CommentBlock.goesOn,
      Bool.and_eq_true, Bool.and_eq_true, Bool.not_eq_true', Bool.not_eq_true', CommentBlock.adjacent_eq_true_iff,
      and_assoc]
  · refine runs.imp ?_
    rintro run b ⟨⟨hne, hrun⟩, hb⟩
    exact ⟨hne, hb, hb.stop_eq hne, hb.length_eq_one hne hrun⟩
  · refine CommentBlock.inOrder_of_forall₂ (runs.imp ?_) (whole.symm ▸ h)
    rintro run b ⟨⟨hne, -⟩, hb⟩
    exact ⟨hne, hb⟩

/-- The comments of a file that begins with two of them, one below the other, are in one run. -/
theorem blocks_partition_commentsBelow :
    ∃ f, Source.parse? commentsBelow = some f ∧ f.tree.comments = [⟨0, 4⟩, ⟨5, 9⟩] ∧
      InOrder commentsBelow f.tree.comments ∧
      ∃ runs : List (List Span), runs.flatten = [⟨0, 4⟩, ⟨5, 9⟩] ∧ (∃ run ∈ runs, ⟨0, 4⟩ ∈ run ∧ ⟨5, 9⟩ ∈ run) ∧
        List.Forall₂ (CommentBlock.IsBlockOf commentsBelow) runs (CommentBlock.blocks commentsBelow f.comments) := by
  have read : (Source.parse? commentsBelow).map (·.comments) = some [⟨0, 4⟩, ⟨5, 9⟩] := by decide +kernel
  obtain ⟨f, hf, hcomments⟩ := Option.map_eq_some_iff.1 read
  obtain ⟨htree, inOrder⟩ := Source.comments_tree hf
  rw [← htree] at inOrder hcomments
  obtain ⟨runs, whole, together, made, -⟩ := blocks_partition inOrder
  rw [hcomments] at whole
  refine ⟨f, hf, hcomments, inOrder, runs, whole, ?_, ?_⟩
  · exact (together [] _ _ [] hcomments).2
      ⟨by decide +kernel, by decide +kernel, [0x0A], by decide +kernel, by simp [Bytes.isBlank], by decide⟩
  · rw [← htree]
    exact made.imp fun run b hb => hb.2.1

end Go

end SuiteReport
