import SuiteReport.Proofs.Source.Function
import SuiteReport.Proofs.Subtest.Registration
/-!
# Nodes that are words

Identifiers, and whatever is selected behind a dot, are words, wherever in a source they stand: the grammar makes such
nodes from single words only. So their texts are made of characters of identifiers.

## Main definitions

* `Node.Every`: whether all nodes of a tree have a property.
* `Pattern.nameClasses`: the classes of tokens that a pattern makes identifiers and selected names from.

## Main results

* `Pattern.Reads.every_isNamed`: what is read with such patterns has its names from words.
* `Source.every_isContinuation`: identifiers and selected names are made of characters of identifiers.
-/

namespace SuiteReport.Go

namespace Node

variable {P Q : Node → Prop} {n : Node}

/-- Whether every node that occurs in a tree has a property. -/
def Every (P : Node → Prop) (n : Node) : Prop := ∀ o ∈ n.occurrences, P o.node

/-- Every node of a tree has a property if the root has it and every node of the children has it. -/
theorem every_iff : n.Every P ↔ P n ∧ ∀ child ∈ n.children, child.Every P := by
  have below (index : Nat) (children : List Node) :
      (∀ o ∈ occurrencesFrom n index children, P o.node) ↔ ∀ child ∈ children, child.Every P := by
    induction children generalizing index with
    | nil => simp [occurrencesFrom]
    | cons child later ih =>
        rw [occurrencesFrom, List.forall_mem_append, ih, List.forall_mem_cons, List.forall_mem_map]
        rfl
  rw [Every, occurrences_eq, List.forall_mem_cons, below]

theorem Every.root (h : n.Every P) : P n := (every_iff.1 h).1

theorem Every.child (h : n.Every P) {child : Node} (hchild : child ∈ n.children) : child.Every P :=
  (every_iff.1 h).2 child hchild

theorem Every.mono (h : n.Every P) (hPQ : ∀ m, P m → Q m) : n.Every Q := fun o ho => hPQ _ (h o ho)

/-- Another role changes nothing below the root. -/
theorem Every.inRole (h : n.Every P) {role : Role} (hroot : P (n.inRole role)) : (n.inRole role).Every P :=
  every_iff.2 ⟨hroot, fun _ hchild => h.child hchild⟩

end Node

/-- Whether the class is that of words. -/
def TokenClass.IsWord (c : TokenClass) : Prop := ∃ keyword, c = .word keyword

theorem TokenClass.isWord_of_isWord {reserved : List Keyword} {c : TokenClass} (h : c.isWord reserved = true) :
    c.IsWord := by
  cases c with
  | word keyword => exact ⟨keyword, rfl⟩
  | _ => cases h

namespace Pattern

variable {R : Type} {grammar : R → Pattern R} {context : Context} {left m : Match} {p : Pattern R}
  {ps : List (Pattern R)} {tokens all : List Token}

mutual

/-- The classes of tokens that a pattern makes identifiers and selected names from, without those that its rules make.
All classes are among them if a name may be made up of other things. -/
def nameClasses : Pattern R → List (TokenClass → Bool)
  | token _ | statementEnd | sameLine | ahead _ | notAhead _ | within _ | rule _ | operand => []
  | leaf kind accepts => if kind = .identifier then [accepts] else []
  | node kind p => if kind = .identifier then [fun _ => true] else nameClasses p
  | role .fieldName (leaf _ accepts) => [accepts]
  | role .fieldName _ => [fun _ => true]
  | role _ p => nameClasses p
  | sequence ps | choice ps => nameClassesAll ps
  | many p | inside _ p | provided _ p => nameClasses p
  | extend p extension | extendMany p extension => nameClasses p ++ nameClasses extension

/-- The classes of tokens that several patterns make identifiers and selected names from. -/
def nameClassesAll : List (Pattern R) → List (TokenClass → Bool)
  | [] => []
  | p :: ps => nameClasses p ++ nameClassesAll ps

end

/-- Whether all tokens of a class are words. -/
def OfWords (accepts : TokenClass → Bool) : Prop := ∀ c, accepts c = true → c.IsWord

theorem ofWords_isWord (reserved : List Keyword) : OfWords (·.isWord reserved) := fun _ => TokenClass.isWord_of_isWord

/-- Not all tokens are words. -/
theorem not_ofWords_true : ¬ OfWords fun _ => true := by
  intro h
  obtain ⟨keyword, hword⟩ := h .lineEnd rfl
  cases hword

theorem nameClasses_subset_of_mem (hp : p ∈ ps) : nameClasses p ⊆ nameClassesAll ps := by
  induction ps with
  | nil => cases hp
  | cons q qs ih =>
      rw [nameClassesAll]
      rcases List.mem_cons.1 hp with rfl | hp
      · exact List.subset_append_left _ _
      · exact List.Subset.trans (ih hp) (List.subset_append_right _ _)

/-- What stands in the role of a selected name is a single word. -/
theorem exists_leaf_of_fieldName (h : ∀ accepts ∈ nameClasses (.role .fieldName p), OfWords accepts) :
    ∃ kind accepts, p = .leaf kind accepts ∧ OfWords accepts := by
  cases p with
  | leaf kind accepts => exact ⟨kind, accepts, rfl, h accepts (by simp [nameClasses])⟩
  | _ => exact absurd (h _ (by simp [nameClasses])) not_ofWords_true

/-- In every other role there are the names that there are without it. -/
theorem nameClasses_role {r : Role} (hr : r ≠ .fieldName) (p : Pattern R) :
    nameClasses (.role r p) = nameClasses p := by
  cases r <;> first | exact absurd rfl hr | rfl

/-- Whether the node covers a word, if it is an identifier or a selected name. -/
def IsNamed (all : List Token) (n : Node) : Prop :=
  n.kind = .identifier ∨ n.role = some .fieldName → ∃ t ∈ all, t.cls.IsWord ∧ n.span = t.span

/-- **What is read has its names from words.** The induction is on the reading. -/
theorem Reads.every_isNamed (hgrammar : ∀ r, ∀ accepts ∈ nameClasses (grammar r), OfWords accepts)
    (h : Reads grammar context left p tokens m) (hp : ∀ accepts ∈ nameClasses p, OfWords accepts)
    (hleft : ∀ n ∈ left.nodes, n.Every (IsNamed all)) (hall : tokens ⊆ all) :
    ∀ n ∈ m.nodes, n.Every (IsNamed all) := by
  induction h with
  | token | statementEnd | sameLine | ahead | notAhead | within | sequenceNil | manyNil =>
      simp [Match.nothing]
  | @leaf _ _ kind accepts _ rest t ht ha =>
      intro n hn
      obtain rfl := List.mem_singleton.1 hn
      refine Node.every_iff.2 ⟨?_, by simp⟩
      rintro (hkind | hrole)
      · have words := hp accepts (by simp [nameClasses, show kind = .identifier from hkind])
        exact ⟨t, hall ((suffix_of_dropWhile_isLineEnd ht).subset List.mem_cons_self), words _ ha, rfl⟩
      · cases hrole
  | rule h ih => exact ih (hgrammar _) hleft hall
  | sequenceCons h hlater ih ihlater =>
      rw [nameClasses, nameClassesAll, List.forall_mem_append] at hp
      exact List.forall_mem_append.2 ⟨ih hp.1 hleft hall,
        ihlater (by rw [nameClasses]; exact hp.2) hleft (List.Subset.trans h.rest_suffix.subset hall)⟩
  | choice hmem h ih =>
      rw [nameClasses] at hp
      exact ih (fun accepts ha => hp accepts (nameClasses_subset_of_mem hmem ha)) hleft hall
  | manyCons h hlater ih ihlater =>
      exact List.forall_mem_append.2 ⟨ih (by rwa [nameClasses] at hp) hleft hall,
        ihlater hp hleft (List.Subset.trans h.rest_suffix.subset hall)⟩
  | @node _ _ _ kind _ _ h ih =>
      intro n hn
      obtain ⟨span, -, rfl⟩ := List.mem_map.1 hn
      rw [nameClasses] at hp
      split at hp
      · exact absurd (hp _ List.mem_cons_self) not_ofWords_true
      · rename_i hkind
        refine Node.every_iff.2 ⟨?_, ih hp hleft hall⟩
        rintro (hname | hrole)
        · exact absurd hname hkind
        · cases hrole
  | @role _ _ _ r _ _ h ih =>
      intro n hn
      obtain ⟨inner, hinner, rfl⟩ := List.mem_map.1 hn
      by_cases hr : r = .fieldName
      · subst hr
        obtain ⟨kind, accepts, rfl, words⟩ := exists_leaf_of_fieldName hp
        cases h with
        | @leaf _ _ _ _ _ rest t ht ha =>
            obtain rfl := List.mem_singleton.1 hinner
            refine Node.every_iff.2 ⟨fun _ => ?_, by simp [Node.inRole]⟩
            exact ⟨t, hall ((suffix_of_dropWhile_isLineEnd ht).subset List.mem_cons_self), words _ ha, rfl⟩
      · rw [nameClasses_role hr] at hp
        have every := ih hp hleft hall inner hinner
        refine every.inRole ?_
        rintro (hkind | hrole)
        · exact every.root (.inl hkind)
        · exact absurd (Option.some.inj hrole) hr
  | inside h ih => exact ih (by rwa [nameClasses] at hp) hleft hall
  | provided h hm ih => exact ih (by rwa [nameClasses] at hp) hleft hall
  | operand => exact hleft
  | extendNot h ih =>
      rw [nameClasses, List.forall_mem_append] at hp
      exact ih hp.1 hleft hall
  | extend h he ih ihe =>
      rw [nameClasses, List.forall_mem_append] at hp
      exact ihe hp.2 (ih hp.1 hleft hall) (List.Subset.trans h.rest_suffix.subset hall)
  | extendManyNot h ih =>
      rw [nameClasses, List.forall_mem_append] at hp
      exact ih hp.1 hleft hall
  | extendMany h he hlast ih ihe ihlast =>
      rw [nameClasses, List.forall_mem_append] at hp
      have behind := List.Subset.trans h.rest_suffix.subset hall
      exact ihlast (by simpa [nameClasses] using hp.2) (ihe hp.2 (ih hp.1 hleft hall) behind)
        (List.Subset.trans he.rest_suffix.subset behind)

end Pattern

namespace Grammar

open Pattern

/-- **The grammar makes identifiers and selected names from words.** -/
theorem ofWords_of_mem_nameClasses (r : Rule) : ∀ accepts ∈ nameClasses (pattern r), OfWords accepts := by
  have allocator : OfWords fun c => c == .word (some .make) || c == .word (some .new) := by
    intro c hc
    rw [Bool.or_eq_true, beq_iff_eq, beq_iff_eq] at hc
    rcases hc with rfl | rfl
    · exact ⟨_, rfl⟩
    · exact ⟨_, rfl⟩
  cases r
  all_goals
    repeat
      first
      | exact List.forall_mem_nil _
      | refine List.forall_mem_cons.2 ⟨ofWords_isWord _, ?_⟩
      | refine List.forall_mem_cons.2 ⟨allocator, ?_⟩

theorem ofWords_of_mem_nameClasses_sourceItems : ∀ accepts ∈ nameClasses sourceItems, OfWords accepts := by
  repeat
    first
    | exact List.forall_mem_nil _
    | refine List.forall_mem_cons.2 ⟨ofWords_isWord _, ?_⟩

end Grammar

namespace Source

variable {content : Bytes} {lexemes : Lexemes} {items : List Node}

/-- **Identifiers and selected names** are made of characters of identifiers, wherever they stand in a source. -/
theorem every_isContinuation (hlexemes : Lexemes.ofBytes? content = some lexemes)
    (hitems : items? lexemes.tokens = some items) :
    ∀ item ∈ items, item.Every fun n => n.kind = .identifier ∨ n.role = some .fieldName →
      ∀ c ∈ (n.text content).toList, Identifier.isContinuation c = true := by
  obtain ⟨m, hm, h⟩ := Option.bind_eq_some_iff.1 hitems
  obtain ⟨_, -, h⟩ := Option.bind_eq_some_iff.1 h
  obtain rfl := Option.some.inj h
  have named := (Pattern.reads_of_read hm).every_isNamed Grammar.ofWords_of_mem_nameClasses
    Grammar.ofWords_of_mem_nameClasses_sourceItems (by simp [Match.nothing]) (List.Subset.refl _)
  intro item hitem
  refine (named item hitem).mono fun n hn hname => ?_
  obtain ⟨t, ht, ⟨keyword, hword⟩, hspan⟩ := hn hname
  rw [Node.text, hspan]
  exact Lexemes.isContinuation_of_mem_tokens hlexemes ht hword

end Source

end SuiteReport.Go
