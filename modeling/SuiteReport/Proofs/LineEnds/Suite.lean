import SuiteReport.Proofs.LineEnds.Beginning
import SuiteReport.Proofs.LineEnds.Block
import SuiteReport.Proofs.LineEnds.Search
/-!
# Suites with carriage returns

A source whose lines end in carriage returns and line feeds has the suite of the source whose lines end in line feeds
alone, up to three things. Runes and interpreted strings that go on over a line end can no longer be read. Names are
used as they are written where there is nothing better, and then the carriage returns are in them. And the tolerance for
comments counts bytes, so that a block may come to lie too far from what it documents. Apart from that the suites are
equal, and the last two make differences in single texts only.

## Main definitions

* `Source.written`: the texts that a source uses as they are written.
* `Source.documented`: the places that a comment may document.
* `Source.Drifts`: how comments may differ.

## Main results

* `Source.parse?_returned`: which sources can be read with carriage returns, and what is read.
* `Source.suite?_agrees`: the suite of a source with carriage returns.
* `Source.suite?_returned`: when a source can be read with carriage returns, and when it has an equal suite.
-/

namespace SuiteReport.Go

open Bytes (moved returned)

variable {content : Bytes} {lexemes : Lexemes} {items : List Node}

/-! ### Trees without comments -/

namespace Node

variable {φ : Nat → Nat} {P : Node → Prop} {n : Node}

mutual

/-- A moved tree without comments is the tree without comments, moved. -/
theorem uncommented_moved : ∀ n : Node, (n.moved φ).uncommented = n.uncommented.moved φ
  | ⟨kind, role, span, children⟩ => by
      rw [moved, uncommented, uncommented, moved, uncommentedAll_movedAll children]

theorem uncommentedAll_movedAll : ∀ ns : List Node, uncommentedAll (movedAll φ ns) = movedAll φ (uncommentedAll ns)
  | [] => rfl
  | n :: later => by
      have comment (n : Node) : (n.moved φ).isComment = n.isComment := by
        rw [isComment, isComment, kind_moved, role_moved, children_moved]
        cases n.children <;> rfl
      rw [movedAll, uncommentedAll, uncommentedAll, uncommented_moved n, comment, uncommentedAll_movedAll later]
      split
      · rfl
      · rw [movedAll]

end

/-- What is so of every node of a tree, comments left out, is so of every node of the tree without comments. -/
theorem Every.uncommented (h : n.Every fun m => P m.uncommented) : n.uncommented.Every P := by
  induction hk : sizeOf n using Nat.strongRecOn generalizing n with
  | ind k ih =>
      subst hk
      refine every_iff.2 ⟨h.root, fun child hchild => ?_⟩
      rw [children_uncommented, uncommentedAll_eq] at hchild
      obtain ⟨inner, hinner, rfl⟩ := List.mem_map.1 (List.mem_filter.1 hchild).1
      exact ih _ (sizeOf_lt_of_mem hinner) (h.child hinner) rfl

end Node

/-! ### Reading -/

/-- The tokens of a source are moved when carriage returns are put in. -/
theorem moves_returned (content : Bytes) : Moves (moved content) (Token.returned content) where
  mono _ _ := Bytes.moved_mono content
  cls _ := rfl
  span t h := by
    rw [Token.returned, h]
    rfl

namespace Source

/-- The tree of the items of a content, without comments. -/
def bareTree (content : Bytes) (items : List Node) : Node := ⟨.sourceFile, none, ⟨0, content.length⟩, items⟩

theorem bareTree_returned (content : Bytes) (items : List Node) :
    bareTree (returned content) (items.map (Node.moved (moved content))) =
      (bareTree content items).moved (moved content) := by
  rw [bareTree, bareTree, Node.moved_mk, Span.moved, Bytes.moved_zero, Bytes.moved_length]

/-- What is read of a source that can be read. -/
theorem exists_of_parse? {f : Source} (h : parse? content = some f) :
    ∃ lexemes items, Lexemes.ofBytes? content = some lexemes ∧ items? lexemes.tokens = some items ∧
      f = ⟨content, (bareTree content items).weave lexemes.comments, lexemes.comments⟩ := by
  obtain ⟨lexemes, hlexemes, h⟩ := Option.bind_eq_some_iff.1 h
  obtain ⟨items, hitems, h⟩ := Option.bind_eq_some_iff.1 h
  exact ⟨lexemes, items, hlexemes, hitems, (Option.some.inj h).symm⟩

/-- **A source with carriage returns can be read** exactly if no rune and no interpreted string goes on over a line end.
Its tree is the tree of the source, moved, with the comments put in again. -/
theorem parse?_returned (hlexemes : Lexemes.ofBytes? content = some lexemes)
    (hitems : items? lexemes.tokens = some items) {f' : Source} :
    parse? (returned content) = some f' ↔ lexemes.Unbroken content ∧
      f' = ⟨returned content,
        ((bareTree content items).moved (moved content)).weave (lexemes.comments.map (returnedComment content)),
        lexemes.comments.map (returnedComment content)⟩ := by
  rw [← bareTree_returned]
  constructor
  · intro h
    obtain ⟨lexemes', items', hlexemes', hitems', rfl⟩ := exists_of_parse? h
    obtain ⟨hunbroken, rfl⟩ := (Lexemes.ofBytes?_returned hlexemes).1 hlexemes'
    rw [Lexemes.returned, items?_moved (moves_returned content), hitems] at hitems'
    obtain rfl := Option.some.inj hitems'
    exact ⟨hunbroken, rfl⟩
  · rintro ⟨hunbroken, rfl⟩
    have hlexemes' := (Lexemes.ofBytes?_returned hlexemes).2 ⟨hunbroken, rfl⟩
    have hitems' := items?_moved (moves_returned content) lexemes.tokens
    rw [hitems] at hitems'
    rw [parse?, hlexemes', Option.bind_eq_bind, Option.bind_some, Lexemes.returned, hitems']
    rfl

/-! ### What may differ -/

variable {f f' : Source} {settings : Settings}

/-- The texts that the source uses as they are written, for names of sub-tests and for values of loop variables. -/
def written (f : Source) (settings : Settings) : List String :=
  f.tree.uncommented.occurrences.flatMap fun o => (f.scope settings).written o.node

/-- The offsets where something begins that a comment may document: a package clause, a function or a registration. -/
def documented (f : Source) (settings : Settings) : List Nat :=
  (f.tree.uncommented.occurrences.filter fun o => (f.scope settings).Documents o.node).map (·.node.span.start)

/-- Whether two comments are the same, or what documents a place of the source and what documents it with carriage
returns, where the block that decides about it does not stay near. -/
def Drifts (f f' : Source) (settings : Settings) (comment comment' : String) : Prop :=
  comment' = comment ∨ ∃ o ∈ f.documented settings, ¬ f.StaysNear settings.maxCommentGap o ∧
    comment = f.documentationAt settings.maxCommentGap o ∧
    comment' = f'.documentationAt settings.maxCommentGap (moved f.content o)

/-- The suites are alike if the units of the test functions and the descriptions are. -/
theorem rel_suite? {N M C : String → String → Prop} (package name : String)
    (hunits : List.Forall₂ (TestUnit.Agrees N M C) (f.testUnits settings) (f'.testUnits settings))
    (hdescription : C ((f.description? (f.scope settings)).getD "") ((f'.description? (f'.scope settings)).getD "")) :
    Option.Rel (TestSuite.Agrees N M C) (f.suite? settings package name) (f'.suite? settings package name) := by
  rw [testUnits, testUnits] at hunits
  rw [suite?, suite?]
  generalize f.functions.filterMap ((f.scope settings).testFunction? settings.testPrefix) = units at hunits ⊢
  generalize f'.functions.filterMap ((f'.scope settings).testFunction? settings.testPrefix) = units' at hunits ⊢
  cases hunits with
  | nil => exact .none
  | cons h hlater => exact .some ⟨rfl, rfl, hdescription, .cons h hlater⟩

section Agreement

variable {C : String → String → Prop}

/-- The units of the test functions with carriage returns, where the trees without comments are moved. -/
theorem forall₂_testUnits (hcontent : f'.content = returned f.content)
    (htree : f'.tree.uncommented = f.tree.uncommented.moved (moved f.content))
    (hline : f.tree.uncommented.Every (Node.LineName f.content))
    (hname : ∀ n ∈ f.functions, ∀ name ∈ (f.scope settings).functionName? n, '\n' ∉ name.toList)
    (hcomment : f.tree.uncommented.Every fun m => (f.scope settings).Documents m →
      C ((f.scope settings).comment m) ((f'.scope settings).comment (m.moved (moved f.content)))) :
    List.Forall₂
      (TestUnit.Agrees (ReturnedIn (· ∈ f.written settings)) (ReturnedIn (segmentsOf (· ∈ f.written settings))) C)
      (f.testUnits settings) (f'.testUnits settings) := by
  have children : f'.functions.map Node.uncommented =
      (f.functions.map Node.uncommented).map (Node.moved (moved f.content)) := by
    rw [← functions_uncommented f { f with tree := f.tree.uncommented } rfl,
      ← functions_uncommented f' { f' with tree := f'.tree.uncommented } rfl, functions, functions, htree,
      Node.children_moved]
    exact Node.filter_moved (fun n => by rw [Node.kind_moved]) _
  have same (f : Source) : f.testUnits settings =
      (f.functions.map Node.uncommented).filterMap ((f.scope settings).testFunction? settings.testPrefix) := by
    rw [← testUnits_uncommented, testUnits, functions_uncommented f _ rfl]
    rfl
  rw [same, same, children]
  have functions : List.Forall₂
      (fun n m => m = n.moved (moved f.content) ∧ n ∈ f.functions.map Node.uncommented)
      (f.functions.map Node.uncommented)
      ((f.functions.map Node.uncommented).map (Node.moved (moved f.content))) :=
    List.forall₂_map_right_iff.2 (List.forall₂_same.2 fun n hn => ⟨rfl, hn⟩)
  refine List.rel_filterMap ?_ functions
  rintro n _ ⟨rfl, hn⟩
  have kind : n.kind = .functionDeclaration := by
    obtain ⟨inner, hinner, rfl⟩ := List.mem_map.1 hn
    rw [Node.kind_uncommented]
    exact beq_iff_eq.1 (List.mem_filter.1 hinner).2
  have inside : n ∈ f.tree.uncommented.children := by
    rw [← functions_uncommented f { f with tree := f.tree.uncommented } rfl] at hn
    exact (List.mem_filter.1 hn).1
  have line : ∀ name ∈ (f.scope settings).functionName? n, '\n' ∉ name.toList := by
    obtain ⟨inner, hinner, rfl⟩ := List.mem_map.1 hn
    rw [functionName?_uncommented]
    exact hname inner hinner
  have writes : f.tree.uncommented.Every fun m => ∀ text ∈ (f.scope settings).written m, text ∈ f.written settings :=
    fun o ho text h => List.mem_flatMap.2 ⟨o, ho, h⟩
  have method : (f'.scope settings).runMethod = (f.scope settings).runMethod := rfl
  exact testFunction?_returned hcontent method settings.testPrefix kind line (hline.child inside) (writes.child inside)
    (hcomment.child inside)

/-- The descriptions with carriage returns, where the trees without comments are moved. -/
theorem description?_related (htree : f'.tree.uncommented = f.tree.uncommented.moved (moved f.content))
    (hcomment : f.tree.uncommented.Every fun m => (f.scope settings).Documents m →
      C ((f.scope settings).comment m) ((f'.scope settings).comment (m.moved (moved f.content))))
    (hnothing : C "" "") :
    C ((f.description? (f.scope settings)).getD "") ((f'.description? (f'.scope settings)).getD "") := by
  have commentOf (f : Source) : (f.description? (f.scope settings)).getD "" =
      ((f.tree.uncommented.children.find? (·.kind == .packageClause)).map (f.scope settings).comment).getD "" := by
    rw [← description?_uncommented, description?]
    cases f.tree.uncommented.children.find? (·.kind == .packageClause) with
    | none => rfl
    | some clause =>
        by_cases h : (f.scope settings).comment clause = "" <;> simp [h]
  rw [commentOf, commentOf, htree, Node.children_moved, Node.find?_moved fun n => by rw [Node.kind_moved]]
  cases hclause : f.tree.uncommented.children.find? (·.kind == .packageClause) with
  | none => exact hnothing
  | some clause =>
      have kind := List.find?_some hclause
      exact (hcomment.child (List.mem_of_find?_eq_some hclause)).root (.inl (beq_iff_eq.1 kind))

end Agreement

/-! ### Sources that are read -/

/-- Comments that have been put into a tree are gone when it is taken without comments. -/
theorem uncommented_weave (tree : Node) (comments : List Span) : (tree.weave comments).uncommented = tree.uncommented :=
  (Node.removes_weave comments tree).uncommented_eq.symm

/-- The names in a source are on one line. -/
theorem every_lineName (hlexemes : Lexemes.ofBytes? content = some lexemes)
    (hitems : items? lexemes.tokens = some items) :
    (bareTree content items).uncommented.Every (Node.LineName content) := by
  refine Node.Every.uncommented (Node.every_iff.2 ⟨?_, fun item hitem => ?_⟩)
  · rintro (h | h)
    · rw [Node.kind_uncommented] at h
      cases h
    · rw [Node.role_uncommented] at h
      cases h
  · refine (every_isContinuation hlexemes hitems item hitem).mono fun n hn hname hfeed => ?_
    rw [Node.kind_uncommented, Node.role_uncommented] at hname
    rw [Node.text_uncommented] at hfeed
    exact absurd (hn hname '\n' hfeed) (by decide)

/-- What may be documented begins inside the source and not at a line feed. -/
theorem every_documents_begins (hlexemes : Lexemes.ofBytes? content = some lexemes)
    (hitems : items? lexemes.tokens = some items) (s : Scope) :
    (bareTree content items).uncommented.Every fun n => s.Documents n →
      ∃ b, content[n.span.start]? = some b ∧ b ≠ Bytes.newline := by
  refine Node.Every.uncommented (Node.every_iff.2 ⟨?_, fun item hitem => ?_⟩)
  · intro h
    rw [Scope.Documents, Scope.Registers, Node.kind_uncommented] at h
    rcases h with h | h | ⟨h, -⟩ <;> cases h
  · refine (every_begins hlexemes hitems item hitem).mono fun n hn _ => ?_
    rwa [Node.span_uncommented]

/-- What may be documented has the comment that it has, or the block that decides about it does not stay near. -/
theorem every_documents_drifts (hf : parse? content = some f) (hf' : parse? (returned content) = some f')
    (hplain : 0x0D ∉ content) (settings : Settings) :
    f.tree.uncommented.Every fun n => (f.scope settings).Documents n →
      f.Drifts f' settings ((f.scope settings).comment n)
        ((f'.scope settings).comment (n.moved (moved f.content))) := by
  obtain ⟨lexemes, items, hlexemes, hitems, hread⟩ := exists_of_parse? hf
  obtain ⟨-, hread'⟩ := (parse?_returned hlexemes hitems).1 hf'
  have hcontent : f.content = content := by rw [hread]
  have hcomments : f.comments = lexemes.comments := by rw [hread]
  have htree : f.tree = (bareTree content items).weave lexemes.comments := by rw [hread]
  have hcontent' : f'.content = returned f.content := by rw [hread', hcontent]
  have hcomments' : f'.comments = f.comments.map (returnedComment f.content) := by rw [hread', hcomments, hcontent]
  have begins := every_documents_begins hlexemes hitems (f.scope settings)
  rw [← uncommented_weave _ lexemes.comments, ← htree] at begins
  rw [← hcontent] at hlexemes hplain begins
  intro o ho hdocuments
  have comment' : (f'.scope settings).comment (o.node.moved (moved f.content)) =
      f'.documentationAt settings.maxCommentGap (moved f.content o.node.span.start) := by
    rw [Scope.comment, Node.span_moved]
    rfl
  by_cases hnear : f.StaysNear settings.maxCommentGap o.node.span.start
  · obtain ⟨b, hat, hfeed⟩ := begins o ho hdocuments
    obtain ⟨hlt, -⟩ := List.getElem?_eq_some_iff.1 hat
    have away : f.content[o.node.span.start]? ≠ some Bytes.newline := by
      rw [hat]
      exact fun h => hfeed (Option.some.inj h)
    refine .inl (comment'.trans ?_)
    exact documentationAt_returned hlexemes hcomments hcontent' hcomments' hplain (Nat.le_of_lt hlt) away hnear
  · have place : o.node.span.start ∈ f.documented settings :=
      List.mem_map_of_mem (List.mem_filter.2 ⟨ho, decide_eq_true hdocuments⟩)
    exact .inr ⟨_, place, hnear, rfl, comment'⟩

/-- **The suite of a source with carriage returns** is there if it was, with the same units in the same order and nested
in the same way. -/
theorem suite?_agrees (hf : parse? content = some f) (hf' : parse? (returned content) = some f')
    (hplain : 0x0D ∉ content) (settings : Settings) (package name : String) :
    Option.Rel
      (TestSuite.Agrees (ReturnedIn (· ∈ f.written settings)) (ReturnedIn (segmentsOf (· ∈ f.written settings)))
        (f.Drifts f' settings))
      (f.suite? settings package name) (f'.suite? settings package name) := by
  have hcomment := every_documents_drifts hf hf' hplain settings
  have hname : ∀ n ∈ f.functions, ∀ name ∈ (f.scope settings).functionName? n, '\n' ∉ name.toList := by
    intro n hn name hname hfeed
    obtain ⟨name', hname', word⟩ := exists_functionName? hf settings hn
    obtain rfl := Option.some.inj (hname.symm.trans hname')
    exact absurd (word '\n' hfeed) (by decide)
  obtain ⟨lexemes, items, hlexemes, hitems, rfl⟩ := exists_of_parse? hf
  obtain ⟨-, rfl⟩ := (parse?_returned hlexemes hitems).1 hf'
  have htree : (((bareTree content items).moved (moved content)).weave
      (lexemes.comments.map (returnedComment content))).uncommented =
        ((bareTree content items).weave lexemes.comments).uncommented.moved (moved content) := by
    rw [uncommented_weave, uncommented_weave, Node.uncommented_moved]
  have hline := every_lineName hlexemes hitems
  rw [← uncommented_weave _ lexemes.comments] at hline
  exact rel_suite? package name (forall₂_testUnits rfl htree hline hname hcomment)
    (description?_related htree hcomment (.inl rfl))

/-- A description is not empty. -/
theorem description?_ne_empty (f : Source) (s : Scope) : f.description? s ≠ some "" := by
  intro h
  obtain ⟨clause, -, h⟩ := Option.bind_eq_some_iff.1 h
  obtain ⟨_, hne, h⟩ := Option.bind_eq_some_iff.1 h
  rw [Option.some.inj h] at hne
  simp [guard] at hne

/-- The description of a suite that a source makes up is not empty. -/
theorem description_ne_empty {package name : String} {suite : TestSuite}
    (h : f.suite? settings package name = some suite) : suite.description ≠ some "" := by
  rw [suite?] at h
  split at h
  · cases h
  · obtain rfl := Option.some.inj h
    exact description?_ne_empty f _

/-- **Line ends with carriage returns.** Take a source without carriage returns that can be read. With a carriage return
before every line feed it can be read exactly if no rune and no interpreted string goes on over a line end. Then it
makes up a suite if it did, and the suites have the same units in the same order, nested in the same way. Names and
machine names differ at most by the carriage returns in texts that are used as they are written, and comments and
descriptions at most where the block that decides does not stay near. If no such text goes on over a line end and all
blocks that decide stay near, the suites are equal. -/
theorem suite?_returned (hplain : 0x0D ∉ content) (hlexemes : Lexemes.ofBytes? content = some lexemes)
    (hf : parse? content = some f) :
    ((parse? (returned content)).isSome ↔ lexemes.Unbroken content) ∧
      ∀ f', parse? (returned content) = some f' → ∀ (settings : Settings) (package name : String),
        Option.Rel
          (TestSuite.Agrees (ReturnedIn (· ∈ f.written settings))
            (ReturnedIn (segmentsOf (· ∈ f.written settings))) (f.Drifts f' settings))
          (f.suite? settings package name) (f'.suite? settings package name) ∧
        ((∀ text ∈ f.written settings, '\n' ∉ text.toList) →
          (∀ o ∈ f.documented settings, f.StaysNear settings.maxCommentGap o) →
          f'.suite? settings package name = f.suite? settings package name) := by
  constructor
  · obtain ⟨lexemes', items, hlexemes', hitems, -⟩ := exists_of_parse? hf
    obtain rfl := Option.some.inj (hlexemes.symm.trans hlexemes')
    rw [Option.isSome_iff_exists]
    simp [parse?_returned hlexemes hitems]
  · intro f' hf' settings package name
    have agrees := suite?_agrees hf hf' hplain settings package name
    refine ⟨agrees, fun hwritten hnear => ?_⟩
    have same (comment comment' : String) (h : f.Drifts f' settings comment comment') : comment' = comment := by
      rcases h with h | ⟨o, ho, hfar, -, -⟩
      · exact h
      · exact absurd (hnear o ho) hfar
    cases hsuite : f.suite? settings package name with
    | none =>
        rw [hsuite] at agrees
        cases hsuite' : f'.suite? settings package name with
        | none => rfl
        | some suite' =>
            rw [hsuite'] at agrees
            cases agrees
    | some suite =>
        rw [hsuite] at agrees
        cases hsuite' : f'.suite? settings package name with
        | none =>
            rw [hsuite'] at agrees
            cases agrees
        | some suite' =>
            rw [hsuite'] at agrees
            obtain ⟨agrees⟩ := agrees
            exact congrArg some (agrees.eq (fun _ _ => ReturnedIn.eq_of_oneLine hwritten)
              (fun _ _ => ReturnedIn.eq_of_oneLine (newline_notMem_of_segmentsOf hwritten)) same
              (description_ne_empty hsuite) (description_ne_empty hsuite'))

instance (f : Source) (maxGap o : Nat) : Decidable (f.StaysNear maxGap o) :=
  match h : (CommentBlock.blocks f.content f.comments).find?
      (CommentBlock.reaches (Anchor.ofOffset f.content o) maxGap) with
  | none => isTrue (by simp [StaysNear, h])
  | some b => decidable_of_iff
      (∀ c ∈ f.comments, c.stop = b.span.stop → moved f.content o - (returnedComment f.content c).stop ≤ maxGap)
      (by simp [StaysNear, h])

/-- A documented file with a text on two lines. -/
def linesFile : Bytes := Bytes.ofString
  "// p\npackage p\n/* a\nb */\nfunc TestX() \x7b\n// c\nt.Run(`a\nb` + f(1), func() \x7b\x7d)\x7d"

/-- The file has the same suite with carriage returns. -/
theorem suite?_returned_linesFile :
    ∃ lexemes f f', 0x0D ∉ linesFile ∧ Lexemes.ofBytes? linesFile = some lexemes ∧ parse? linesFile = some f ∧
      parse? (returned linesFile) = some f' ∧ lexemes.Unbroken linesFile ∧ f.written {} = ["f(1)"] ∧
      f.documented {} = [5, 25, 45] ∧ (f.suite? {} "p" "x_test.go").isSome ∧
      f'.suite? {} "p" "x_test.go" = f.suite? {} "p" "x_test.go" := by
  have plain : 0x0D ∉ linesFile := by decide +kernel
  have parsed : (parse? linesFile).map (fun f => (f.written {}, f.documented {},
      decide (∀ o ∈ f.documented {}, f.StaysNear 10 o), (f.suite? {} "p" "x_test.go").isSome)) =
        some (["f(1)"], [5, 25, 45], true, true) := by
    decide +kernel
  have parsed' : (parse? (returned linesFile)).isSome = true := by decide +kernel
  obtain ⟨f, hf, hfacts⟩ := Option.map_eq_some_iff.1 parsed
  obtain ⟨hwritten, hfacts⟩ := Prod.mk.inj hfacts
  obtain ⟨hdocumented, hfacts⟩ := Prod.mk.inj hfacts
  obtain ⟨hnear, hsuite⟩ := Prod.mk.inj hfacts
  obtain ⟨lexemes, _, hlexemes, -, -⟩ := exists_of_parse? hf
  obtain ⟨f', hf'⟩ := Option.isSome_iff_exists.1 parsed'
  obtain ⟨hread, hsuites⟩ := suite?_returned plain hlexemes hf
  refine ⟨lexemes, f, f', plain, hlexemes, hf, hf', hread.1 parsed', hwritten, hdocumented, hsuite, ?_⟩
  exact (hsuites f' hf' {} "p" "x_test.go").2 (by rw [hwritten]; decide) (of_decide_eq_true hnear)

/-- The names and the comments of the units that a content makes up, each unit before its sub-tests. -/
def unitTexts? (content : Bytes) : Option (List (String × String)) :=
  (parse? content).bind fun f => (f.suite? {} "p" "x_test.go").map fun suite =>
    (TestUnit.preorderAll suite.units).map fun u => (u.name, u.comment)

/-- Carriage returns may make a difference: a rune on two lines can no longer be read, a name that is used as it is
written has the carriage return in it, and a comment may come to lie too far from what it documents. -/
theorem exists_unitTexts?_returned_ne :
    (∃ content, 0x0D ∉ content ∧ unitTexts? content = some [("TestX", "")] ∧
        (parse? (returned content)).isNone) ∧
      (∃ content, 0x0D ∉ content ∧ unitTexts? content = some [("TestX", ""), ("f(\n1)", "")] ∧
        unitTexts? (returned content) = some [("TestX", ""), ("f(\r\n1)", "")]) ∧
      ∃ content, 0x0D ∉ content ∧ unitTexts? content = some [("TestX", "/* doc */")] ∧
        unitTexts? (returned content) = some [("TestX", "")] :=
  ⟨⟨Bytes.ofString "func TestX() \x7b'\n'\x7d", by decide +kernel⟩,
    ⟨Bytes.ofString "func TestX() \x7b t.Run(f(\n1), func() \x7b\x7d) \x7d", by decide +kernel⟩,
    Bytes.ofString "/* doc */\n         func TestX() \x7b\x7d", by decide +kernel⟩

end Source

end SuiteReport.Go
