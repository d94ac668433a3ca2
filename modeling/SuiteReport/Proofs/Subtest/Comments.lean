import SuiteReport.Go.TestFile
import SuiteReport.Proofs.Subtest.Declaration
/-!
# Comments in a syntax tree

Comments are nodes like others and may stand anywhere among the children of a node, before, between and behind those
that count. Whatever the search for sub-tests looks at is either found by its role or its kind, which no comment has,
or counted among the parts of a node, of which comments are none. So a tree with comments and the tree without them
have the same units, and only what documents them can differ.

## Main definitions

* `Node.Removes`: a tree and the same tree without some of its comments.
* `Node.uncommented`: a tree without any of its comments.
* `TestSuite.undocumented`: a suite apart from what documents it.

## Main results

* `Node.filter_uncommentedAll`: what is found among children without comments.
* `subtests_uncommented`: the search finds the same units in a tree without comments.
* `undocumentedAll_subtests`: apart from what documents them, units do not depend on comments at all.
* `Source.undocumented_suite?`: comments do not change the units of a file.
-/

namespace SuiteReport

/-! ### Units apart from their documentation -/

mutual

/-- A unit apart from the comments on it and on its sub-tests. -/
def TestUnit.undocumented : TestUnit → TestUnit
  | ⟨name, machineName, _, subtests⟩ => ⟨name, machineName, "", TestUnit.undocumentedAll subtests⟩

/-- Several units apart from the comments on them. -/
def TestUnit.undocumentedAll : List TestUnit → List TestUnit
  | [] => []
  | u :: us => u.undocumented :: TestUnit.undocumentedAll us

end

/-- A suite apart from its description and from the comments on its units. -/
def TestSuite.undocumented (s : TestSuite) : TestSuite :=
  { s with description := none, units := TestUnit.undocumentedAll s.units }

theorem TestUnit.undocumentedAll_eq_map (us : List TestUnit) : undocumentedAll us = us.map undocumented := by
  induction us with
  | nil => rfl
  | cons u us ih => rw [undocumentedAll, ih, List.map_cons]

namespace Go

namespace Node

/-! ### Removing comments -/

mutual

/-- Whether a tree becomes another one when some of the comments in it are removed. -/
inductive Removes : Node → Node → Prop where
  /-- A node stays as it is, apart from its children. -/
  | node (kind : Kind) (role : Option Role) (span : Span) {children children' : List Node}
      (h : RemovesAll children children') : Removes ⟨kind, role, span, children⟩ ⟨kind, role, span, children'⟩

/-- Whether several trees become others when some of the comments in them and between them are removed. -/
inductive RemovesAll : List Node → List Node → Prop where
  /-- There is nothing to remove. -/
  | nil : RemovesAll [] []
  /-- The first tree stays. -/
  | kept {n n' : Node} {later later' : List Node} (h : Removes n n') (hlater : RemovesAll later later') :
      RemovesAll (n :: later) (n' :: later')
  /-- The first tree is a comment and is removed. -/
  | removed (span : Span) {later later' : List Node} (hlater : RemovesAll later later') :
      RemovesAll (ofComment span :: later) later'

end

/-- Whether a node is a comment with nothing in it. -/
def isComment (n : Node) : Bool := n.kind == .comment && n.role == none && n.children.isEmpty

mutual

/-- The tree without comments. -/
def uncommented : Node → Node
  | ⟨kind, role, span, children⟩ => ⟨kind, role, span, uncommentedAll children⟩

/-- The trees without the comments in them and between them. -/
def uncommentedAll : List Node → List Node
  | [] => []
  | n :: later =>
    if n.uncommented.isComment then uncommentedAll later else n.uncommented :: uncommentedAll later

end

mutual

/-- With any of its comments removed a tree is the same without comments. -/
theorem Removes.uncommented_eq : ∀ {n n' : Node}, Removes n n' → n'.uncommented = n.uncommented
  | _, _, .node kind role span h => by rw [uncommented, uncommented, h.uncommentedAll_eq]

/-- With any of their comments removed trees are the same without comments. -/
theorem RemovesAll.uncommentedAll_eq :
    ∀ {ns ns' : List Node}, RemovesAll ns ns' → uncommentedAll ns' = uncommentedAll ns
  | _, _, .nil => rfl
  | _, _, .kept h hlater => by rw [uncommentedAll, uncommentedAll, h.uncommented_eq, hlater.uncommentedAll_eq]
  | _, _, .removed span hlater => by
      have comment : (ofComment span).uncommented.isComment = true := by
        rw [ofComment, uncommented, uncommentedAll]
        rfl
      rw [hlater.uncommentedAll_eq, uncommentedAll, if_pos comment]

end

/-- Comments before some trees can be removed. -/
theorem RemovesAll.append_comments {ns ns' : List Node} (comments : List Span) (h : RemovesAll ns ns') :
    RemovesAll (comments.map ofComment ++ ns) ns' := by
  induction comments with
  | nil => exact h
  | cons span comments ih => exact .removed span ih

variable {n : Node} {content : Bytes} {bindings : List LoopBinding}

@[simp] theorem kind_uncommented (n : Node) : n.uncommented.kind = n.kind := by
  cases n
  rw [uncommented]

@[simp] theorem role_uncommented (n : Node) : n.uncommented.role = n.role := by
  cases n
  rw [uncommented]

@[simp] theorem span_uncommented (n : Node) : n.uncommented.span = n.span := by
  cases n
  rw [uncommented]

theorem children_uncommented (n : Node) : n.uncommented.children = uncommentedAll n.children := by
  cases n
  rw [uncommented]

@[simp] theorem text_uncommented (n : Node) (content : Bytes) : n.uncommented.text content = n.text content := by
  rw [text, text, span_uncommented]

@[simp] theorem isString_uncommented (n : Node) : n.uncommented.isString = n.isString := by
  rw [isString, isString, kind_uncommented]

/-- A comment has the kind of comments and plays no role. -/
theorem of_isComment (h : n.isComment = true) : n.kind = .comment ∧ n.role = none ∧ n.children = [] := by
  rw [isComment, Bool.and_eq_true, Bool.and_eq_true] at h
  exact ⟨beq_iff_eq.1 h.1.1, beq_iff_eq.1 h.1.2, List.isEmpty_iff.1 h.2⟩

/-- Without comments are left the trees that are none, each without the comments in it. -/
theorem uncommentedAll_eq (ns : List Node) : uncommentedAll ns = (ns.map uncommented).filter (!·.isComment) := by
  induction ns with
  | nil => rfl
  | cons n later ih =>
      rw [uncommentedAll, ih, List.map_cons, List.filter_cons]
      cases n.uncommented.isComment <;> rfl

/-- **What is found among trees without comments** is what is found among the trees, if it is looked for by what no
comment has. -/
theorem filter_uncommentedAll {p : Node → Bool} (hp : ∀ n, p n.uncommented = p n)
    (hcomment : ∀ n, n.isComment = true → p n = false) (ns : List Node) :
    (uncommentedAll ns).filter p = (ns.filter p).map uncommented := by
  have kept (n : Node) : (p n && !n.isComment) = p n := by
    cases hc : n.isComment with
    | false => simp
    | true => simp [hcomment n hc]
  rw [uncommentedAll_eq, List.filter_filter, List.filter_congr fun n _ => kept n, List.filter_map]
  exact congrArg (List.map uncommented) (List.filter_congr fun n _ => hp n)

/-- The first tree that is found is the same. -/
theorem find?_uncommentedAll {p : Node → Bool} (hp : ∀ n, p n.uncommented = p n)
    (hcomment : ∀ n, n.isComment = true → p n = false) (ns : List Node) :
    (uncommentedAll ns).find? p = (ns.find? p).map uncommented := by
  rw [← List.head?_filter, filter_uncommentedAll hp hcomment, List.head?_map, List.head?_filter]

/-- What is looked for by its kind is not a comment. -/
theorem filter_kind_uncommentedAll {kind : Kind} (hkind : kind ≠ .comment) (ns : List Node) :
    (uncommentedAll ns).filter (·.kind == kind) = (ns.filter (·.kind == kind)).map uncommented := by
  refine filter_uncommentedAll (fun n => by simp) (fun n h => ?_) ns
  rw [(of_isComment h).1]
  simpa using hkind.symm

/-! ### What the search looks at -/

/-- No comment plays a role. -/
theorem child?_uncommented (n : Node) (role : Role) : n.uncommented.child? role = (n.child? role).map uncommented := by
  rw [child?, child?, children_uncommented]
  refine find?_uncommentedAll (fun n => by simp) (fun n h => ?_) _
  rw [(of_isComment h).2.1]
  rfl

/-- No comment is a part. -/
theorem parts_uncommented (n : Node) : n.uncommented.parts = n.parts.map uncommented := by
  rw [parts, parts, children_uncommented]
  refine filter_uncommentedAll (fun n => by simp) (fun n h => ?_) _
  rw [(of_isComment h).1]
  rfl

/-- Comments are in no place where the search looks. -/
theorem keeps_uncommented : Keeps uncommented where
  kind := kind_uncommented
  child? := child?_uncommented
  parts := parts_uncommented
  range n := by
    rw [children_uncommented]
    refine find?_uncommentedAll (fun n => by simp) (fun n h => ?_) _
    rw [(of_isComment h).1]
    rfl

/-! ### Values and names -/

/-- An element has the value that it has. -/
theorem value?_uncommented (content : Bytes) (n : Node) :
    NameExpression.value? content n.uncommented = NameExpression.value? content n := by
  rw [NameExpression.value?, NameExpression.value?, kind_uncommented, parts_uncommented, List.head?_map]
  split
  · cases n.parts.head? <;> simp
  · simp

/-- A composite literal has the elements that it has. -/
theorem elements_uncommented (content : Bytes) (n : Node) :
    NameExpression.elements content n.uncommented = NameExpression.elements content n := by
  have value : NameExpression.value? content ∘ uncommented = NameExpression.value? content :=
    funext fun part => value?_uncommented content part
  rw [NameExpression.elements, NameExpression.elements, kind_uncommented, child?_uncommented]
  cases n.child? .body with
  | none => rfl
  | some body => simp only [Option.map_some, parts_uncommented, List.filterMap_map, value]

mutual

/-- An expression stands for the names that it stands for. -/
theorem names_uncommented : ∀ n : Node,
    NameExpression.names content bindings n.uncommented = NameExpression.names content bindings n
  | ⟨kind, role, span, children⟩ => by
      have lefts := operandNames?_uncommentedAll .left children
      have rights := operandNames?_uncommentedAll .right children
      rw [uncommented]
      cases kind <;> simp only [NameExpression.names, lefts, rights]

/-- The operand in a role stands for the names that it stands for. -/
theorem operandNames?_uncommentedAll (role : Role) : ∀ ns : List Node,
    NameExpression.operandNames? content bindings role (uncommentedAll ns) =
      NameExpression.operandNames? content bindings role ns
  | [] => rfl
  | n :: later => by
      rw [uncommentedAll, NameExpression.operandNames?]
      split
      · next h =>
          have hrole : n.role ≠ some role := by
            rw [← role_uncommented, (of_isComment h).2.1]
            simp
          rw [if_neg hrole, operandNames?_uncommentedAll role later]
      · rw [NameExpression.operandNames?, role_uncommented, names_uncommented n,
          operandNames?_uncommentedAll role later]

end

/-- A loop makes known of its variable what it makes known. -/
theorem rangeBinding?_uncommented (content : Bytes) (n : Node) :
    n.uncommented.rangeBinding? content = n.rangeBinding? content := by
  rw [rangeBinding?, rangeBinding?, keeps_uncommented.rangeLiteral?, keeps_uncommented.rangeVariable?]
  cases n.rangeLiteral? with
  | none => rfl
  | some literal => simp [elements_uncommented, Function.comp_def]

/-- What is gathered over trees without comments is gathered over the trees, if comments give nothing. -/
theorem flatMap_uncommentedAll {β : Type} {f : Node → List β} (hcomment : ∀ n, n.isComment = true → f n = [])
    (ns : List Node) : (uncommentedAll ns).flatMap f = ns.flatMap fun n => f n.uncommented := by
  induction ns with
  | nil => rfl
  | cons n later ih =>
      rw [uncommentedAll, List.flatMap_cons, ← ih]
      split
      · next h => rw [hcomment _ h, List.nil_append]
      · rw [List.flatMap_cons]

end Node

/-! ### The search -/

open Node
open TestUnit (undocumentedAll undocumentedAll_eq_map)

section Search

variable {s s' : Scope} {parent : String} {bindings : List LoopBinding} {n : Node}

/-- A comment registers nothing. -/
theorem subtests_of_isComment (h : n.isComment = true) : subtests s n parent bindings = [] := by
  obtain ⟨hkind, -, hchildren⟩ := of_isComment h
  have plain : n.rangeLiteral? = none := by simp [rangeLiteral?, rangeClause?, hkind]
  have call : ¬ s.Registers n := fun hr => by cases hkind.symm.trans hr.1
  rw [subtests_of_plain plain call, hchildren, List.flatMap_nil]

theorem namesOf_uncommented (s : Scope) (bindings : List LoopBinding) (n : Node) :
    s.namesOf bindings n.uncommented = s.namesOf bindings n := by
  rw [Scope.namesOf, Scope.namesOf, keeps_uncommented.nameArgument?]
  cases n.nameArgument? with
  | none => rfl
  | some name => simp [names_uncommented]

/-- The same calls register sub-tests. -/
theorem registers_uncommented_iff : s.Registers n.uncommented ↔ s.Registers n := by
  rw [Scope.Registers, Scope.Registers, kind_uncommented, keeps_uncommented.calledMethod?, keeps_uncommented.callback?]
  simp [Option.any_map]

/-- **The search finds the same units without comments.** -/
theorem subtests_uncommented (s : Scope) (n : Node) (parent : String) (bindings : List LoopBinding) :
    subtests s n.uncommented parent bindings = subtests s n parent bindings := by
  induction n using search_induction s generalizing parent bindings with
  | registration n hr ih =>
      rw [subtests_of_registers hr, subtests_of_registers (registers_uncommented_iff.2 hr), Scope.units, Scope.units,
        namesOf_uncommented]
      refine List.map_congr_left fun name _ => ?_
      rw [Scope.unit, Scope.unit, Scope.comment, Scope.comment, span_uncommented, keeps_uncommented.callbackBody?]
      cases hb : n.callbackBody? with
      | none => rfl
      | some body => simp only [Option.map_some, ih body hb]
  | loop n literal hr hl ih =>
      have hl' : n.uncommented.rangeLiteral? = some literal.uncommented := by
        rw [keeps_uncommented.rangeLiteral?, hl, Option.map_some]
      rw [subtests_of_literal hl, subtests_of_literal hl', child?_uncommented, rangeBinding?_uncommented]
      cases hb : n.child? .body with
      | none => rfl
      | some body => exact ih body hb parent _
  | plain n hr hl ih =>
      have hr' : ¬ s.Registers n.uncommented := mt registers_uncommented_iff.1 hr
      have hl' : n.uncommented.rangeLiteral? = none := by rw [keeps_uncommented.rangeLiteral?, hl, Option.map_none]
      rw [subtests_of_plain hl hr, subtests_of_plain hl' hr', children_uncommented,
        flatMap_uncommentedAll fun n h => subtests_of_isComment h]
      exact List.flatMap_congr fun child hchild => ih child hchild parent bindings

/-- **What documents units is all that comments decide**: apart from it, where the same calls register sub-tests in
the same content, the same units are found. -/
theorem undocumentedAll_subtests (hcontent : s'.content = s.content) (hmethod : s'.runMethod = s.runMethod) (n : Node)
    (parent : String) (bindings : List LoopBinding) :
    undocumentedAll (subtests s' n parent bindings) = undocumentedAll (subtests s n parent bindings) := by
  have same (n : Node) : s'.Registers n ↔ s.Registers n := by
    rw [Scope.Registers, Scope.Registers, hcontent, hmethod]
  induction n using search_induction s generalizing parent bindings with
  | registration n hr ih =>
      rw [subtests_of_registers hr, subtests_of_registers ((same n).2 hr), Scope.units, Scope.units, Scope.namesOf,
        Scope.namesOf, hcontent, undocumentedAll_eq_map, undocumentedAll_eq_map, List.map_map, List.map_map]
      refine List.map_congr_left fun name _ => ?_
      simp only [Function.comp_apply, Scope.unit, TestUnit.child, TestUnit.undocumented]
      cases hb : n.callbackBody? with
      | none => rfl
      | some body => simp only [Option.map_some, Option.getD_some, ih body hb]
  | loop n literal hr hl ih =>
      rw [subtests_of_literal hl, subtests_of_literal hl, hcontent]
      cases hb : n.child? .body with
      | none => rfl
      | some body => exact ih body hb parent _
  | plain n hr hl ih =>
      have hr' : ¬ s'.Registers n := mt (same n).1 hr
      rw [subtests_of_plain hl hr, subtests_of_plain hl hr', undocumentedAll_eq_map, undocumentedAll_eq_map,
        List.map_flatMap, List.map_flatMap]
      refine List.flatMap_congr fun child hchild => ?_
      rw [← undocumentedAll_eq_map, ← undocumentedAll_eq_map]
      exact ih child hchild parent bindings

end Search

/-! ### Files -/

section File

variable {f f' : Source} {settings : Settings}

/-- A function has the same name without comments. -/
theorem functionName?_uncommented (s : Scope) (n : Node) : s.functionName? n.uncommented = s.functionName? n := by
  rw [Scope.functionName?, Scope.functionName?, child?_uncommented]
  cases n.child? .name <;> simp

/-- The unit of a function is the same without comments. -/
theorem testFunction?_uncommented (s : Scope) (testPrefix : String) (n : Node) :
    s.testFunction? testPrefix n.uncommented = s.testFunction? testPrefix n := by
  have inside (parent : String) : s.subtestsOf n.uncommented parent = s.subtestsOf n parent := by
    rw [Scope.subtestsOf, Scope.subtestsOf, child?_uncommented]
    cases n.child? .body with
    | none => rfl
    | some body => exact subtests_uncommented s body parent []
  simp only [Scope.testFunction?, functionName?_uncommented, inside, Scope.comment, span_uncommented]

/-- Where the content is the same, the unit of a function is the same apart from what documents it. -/
theorem undocumented_testFunction? (s s' : Scope) (hcontent : s'.content = s.content)
    (hmethod : s'.runMethod = s.runMethod) (testPrefix : String) (n : Node) :
    (s'.testFunction? testPrefix n).map TestUnit.undocumented =
      (s.testFunction? testPrefix n).map TestUnit.undocumented := by
  have inside (parent : String) : undocumentedAll (s'.subtestsOf n parent) = undocumentedAll (s.subtestsOf n parent) := by
    rw [Scope.subtestsOf, Scope.subtestsOf]
    cases n.child? .body with
    | none => rfl
    | some body => exact undocumentedAll_subtests hcontent hmethod body parent []
  rw [Scope.testFunction?, Scope.testFunction?, Scope.functionName?, Scope.functionName?, hcontent]
  cases (n.child? .name).map (·.text s.content) with
  | none => rfl
  | some text =>
      by_cases h : testPrefix.toList <+: text.toList
      · simp [h, TestUnit.root, TestUnit.undocumented, inside]
      · simp [h]

/-- The units of the test functions of a file. -/
def Source.testUnits (f : Source) (settings : Settings) : List TestUnit :=
  f.functions.filterMap ((f.scope settings).testFunction? settings.testPrefix)

/-- Apart from what documents it, the suite of a file is told by the units of its test functions. -/
theorem Source.undocumented_suite?_eq (f : Source) (settings : Settings) (package name : String) :
    (f.suite? settings package name).map TestSuite.undocumented =
      match undocumentedAll (f.testUnits settings) with
      | [] => none
      | units => some ⟨package, name, none, units⟩ := by
  rw [Source.suite?, Source.testUnits]
  cases f.functions.filterMap ((f.scope settings).testFunction? settings.testPrefix) with
  | nil => rfl
  | cons u us => rfl

/-- The functions of a tree without comments. -/
theorem Source.functions_uncommented (f f' : Source) (htree : f'.tree = f.tree.uncommented) :
    f'.functions = f.functions.map Node.uncommented := by
  rw [Source.functions, Source.functions, htree, children_uncommented]
  exact filter_kind_uncommentedAll (by decide) _

/-- Without comments in its tree a file has the description that it has. -/
theorem Source.description?_uncommented (f : Source) (s : Scope) :
    Source.description? { f with tree := f.tree.uncommented } s = f.description? s := by
  have clause : f.tree.uncommented.children.find? (·.kind == .packageClause) =
      (f.tree.children.find? (·.kind == .packageClause)).map uncommented := by
    rw [children_uncommented, ← List.head?_filter, filter_kind_uncommentedAll (by decide), List.head?_map,
      List.head?_filter]
  rw [Source.description?, Source.description?, clause]
  cases f.tree.children.find? (·.kind == .packageClause) with
  | none => rfl
  | some clause =>
      have comment : s.comment clause.uncommented = s.comment clause := by
        rw [Scope.comment, Scope.comment, span_uncommented]
      simp only [Option.map_some, Option.bind_eq_bind, Option.bind_some, comment]

/-- Without comments in its tree the test functions of a file have the same units. -/
theorem Source.testUnits_uncommented (f : Source) (settings : Settings) :
    Source.testUnits { f with tree := f.tree.uncommented } settings = f.testUnits settings := by
  rw [Source.testUnits, Source.testUnits, Source.functions_uncommented f _ rfl, List.filterMap_map]
  exact List.filterMap_congr fun n _ => testFunction?_uncommented (f.scope settings) settings.testPrefix n

/-- Without comments the test functions of a file have the same units, apart from what documents them. -/
theorem Source.undocumentedAll_testUnits (f f' : Source) (hcontent : f'.content = f.content)
    (htree : f'.tree = f.tree.uncommented) (settings : Settings) :
    undocumentedAll (f'.testUnits settings) = undocumentedAll (f.testUnits settings) := by
  rw [← Source.testUnits_uncommented f, Source.testUnits, Source.testUnits, Source.functions_uncommented f f' htree,
    Source.functions_uncommented f { f with tree := f.tree.uncommented } rfl, undocumentedAll_eq_map,
    undocumentedAll_eq_map, List.map_filterMap, List.map_filterMap]
  exact List.filterMap_congr fun n _ =>
    undocumented_testFunction? (f.scope settings) (f'.scope settings) hcontent rfl settings.testPrefix n

/-- **Comments do not change the units of a file.** If some of the comments in its tree are removed, wherever they
stand, the file makes up a suite as before, with the same units in the same order and nested in the same way, and with
the same names and machine names. Only the comments on the units and the description of the suite can differ. -/
theorem Source.undocumented_suite? (hcontent : f'.content = f.content) (htree : f.tree.Removes f'.tree)
    (settings : Settings) (package name : String) :
    (f'.suite? settings package name).map TestSuite.undocumented =
      (f.suite? settings package name).map TestSuite.undocumented := by
  let bare : Source := ⟨f.content, f.tree.uncommented, []⟩
  have all : undocumentedAll (bare.testUnits settings) = undocumentedAll (f.testUnits settings) :=
    Source.undocumentedAll_testUnits f bare rfl rfl settings
  have fewer : undocumentedAll (bare.testUnits settings) = undocumentedAll (f'.testUnits settings) :=
    Source.undocumentedAll_testUnits f' bare hcontent.symm htree.uncommented_eq.symm settings
  rw [Source.undocumented_suite?_eq, Source.undocumented_suite?_eq, ← all, ← fewer]

end File

/-! ### Comments that have been put in -/

mutual

/-- **Comments that have been put into a tree can be removed.** -/
theorem Node.removes_weave (comments : List Span) : ∀ n : Node, (n.weave comments).Removes n
  | ⟨kind, role, span, children⟩ => by
      rw [weave]
      exact .node kind role span (Node.removesAll_weaveAll comments children)

/-- Comments that have been put into several trees can be removed. -/
theorem Node.removesAll_weaveAll (comments : List Span) : ∀ ns : List Node, RemovesAll (weaveAll comments ns) ns
  | [] => by
      rw [weaveAll, ← List.append_nil (comments.map ofComment)]
      exact RemovesAll.append_comments comments .nil
  | ⟨kind, role, span, children⟩ :: later => by
      rw [weaveAll]
      exact RemovesAll.append_comments _ (.kept (Node.removes_weave _ _) (Node.removesAll_weaveAll _ later))

end

/-- The tree of a source has the comments of the source in it, all of which can be removed. -/
theorem Source.exists_removes {content : Bytes} {f : Source} (h : Source.parse? content = some f) :
    ∃ tree, f = ⟨content, tree.weave f.comments, f.comments⟩ ∧ f.tree.Removes tree := by
  obtain ⟨lexemes, -, h⟩ := Option.bind_eq_some_iff.1 h
  obtain ⟨items, -, h⟩ := Option.bind_eq_some_iff.1 h
  obtain rfl := Option.some.inj h
  exact ⟨_, rfl, Node.removes_weave _ _⟩

/-- A loop with comments among its variables, its elements and the arguments of a call. -/
def commentedFile : String :=
  "func TestX() \x7b for _, /*i*/ v := range []string\x7b/*e*/ `a` /*f*/\x7d " ++
    "\x7b t.Run(/*n*/ `x` + /*v*/ v, func() \x7b\x7d) \x7d \x7d"

/-- The file has the same units without its comments. -/
theorem Source.undocumented_suite?_commentedFile :
    ∃ f f' : Source, Source.parse? (Bytes.ofString commentedFile) = some f ∧ f.comments.length = 5 ∧
      f'.content = f.content ∧ f.tree.Removes f'.tree ∧ (f.suite? {} "p" "x_test.go").isSome ∧
      (f'.suite? {} "p" "x_test.go").map TestSuite.undocumented =
        (f.suite? {} "p" "x_test.go").map TestSuite.undocumented := by
  have parsed : (Source.parse? (Bytes.ofString commentedFile)).map
      (fun f => (f.comments.length, (f.suite? {} "p" "x_test.go").isSome)) = some (5, true) := by
    decide +kernel
  obtain ⟨f, hf, hfacts⟩ := Option.map_eq_some_iff.1 parsed
  obtain ⟨hcomments, hsuite⟩ := Prod.mk.inj hfacts
  obtain ⟨tree, -, hremoves⟩ := Source.exists_removes hf
  let bare : Source := ⟨f.content, tree, []⟩
  have same : bare.content = f.content := rfl
  exact ⟨f, bare, hf, hcomments, same, hremoves, hsuite, Source.undocumented_suite? same hremoves {} "p" "x_test.go"⟩

end Go

end SuiteReport
