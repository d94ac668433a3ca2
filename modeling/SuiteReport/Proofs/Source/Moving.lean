import Mathlib.Order.Monotone.Basic
import Mathlib.Order.MinMax
import SuiteReport.Go.Source
/-!
# Tokens at other places

The grammar looks at the classes of tokens and at their order, and never at the bytes that they cover. So tokens that
have been moved apart are read as the same nodes, and these cover the bytes where their first and last tokens have come
to lie. Where a line end lies makes no difference at all, as no node begins or ends with one.

## Main definitions

* `Span.moved`, `Node.moved`, `Match.moved`: spans, nodes and matches with their ends moved.
* `Pattern.conditions`: the conditions that a pattern puts on nodes without the help of its rules.

## Main results

* `Pattern.read_moved`: how moved tokens are read.
* `Source.items?_moved`: the items of a source whose tokens have been moved.
-/

namespace SuiteReport

/-- The span with its ends moved. -/
def Span.moved (φ : Nat → Nat) (s : Span) : Span := ⟨φ s.start, φ s.stop⟩

/-- Moving keeps what lies between two spans between them, if it keeps the order. -/
theorem Span.hull_moved {φ : Nat → Nat} (hφ : Monotone φ) (s t : Span) :
    (s.moved φ).hull (t.moved φ) = (s.hull t).moved φ := by
  rw [hull, hull, moved, moved, moved, hφ.map_min, hφ.map_max]

namespace Go

/-! ### Moved nodes -/

namespace Node

variable {φ : Nat → Nat}

mutual

/-- The tree with the ends of its nodes moved. -/
def moved (φ : Nat → Nat) : Node → Node
  | ⟨kind, role, span, children⟩ => ⟨kind, role, span.moved φ, movedAll φ children⟩

/-- The trees with the ends of their nodes moved. -/
def movedAll (φ : Nat → Nat) : List Node → List Node
  | [] => []
  | n :: later => n.moved φ :: movedAll φ later

end

theorem movedAll_eq_map (ns : List Node) : movedAll φ ns = ns.map (moved φ) := by
  induction ns with
  | nil => rfl
  | cons n later ih => rw [movedAll, ih, List.map_cons]

theorem moved_mk (kind : Kind) (role : Option Role) (span : Span) (children : List Node) :
    moved φ ⟨kind, role, span, children⟩ = ⟨kind, role, span.moved φ, children.map (moved φ)⟩ := by
  rw [moved, movedAll_eq_map]

@[simp] theorem kind_moved (n : Node) : (n.moved φ).kind = n.kind := by
  cases n
  rw [moved]

@[simp] theorem role_moved (n : Node) : (n.moved φ).role = n.role := by
  cases n
  rw [moved]

@[simp] theorem span_moved (n : Node) : (n.moved φ).span = n.span.moved φ := by
  cases n
  rw [moved]

@[simp] theorem children_moved (n : Node) : (n.moved φ).children = n.children.map (moved φ) := by
  cases n
  rw [moved_mk]

theorem inRole_moved (role : Role) (n : Node) : (n.inRole role).moved φ = (n.moved φ).inRole role := by
  cases n
  rw [inRole, inRole, moved_mk, moved_mk]

/-- What is looked for among moved nodes by something that moving does not change is found where it was. -/
theorem find?_moved {p : Node → Bool} (hp : ∀ n, p (n.moved φ) = p n) (ns : List Node) :
    (ns.map (moved φ)).find? p = (ns.find? p).map (moved φ) := by
  rw [List.find?_map]
  exact congrArg (Option.map (moved φ)) (congrArg (List.find? · ns) (funext hp))

/-- What is chosen among moved nodes by something that moving does not change are the nodes that were chosen. -/
theorem filter_moved {p : Node → Bool} (hp : ∀ n, p (n.moved φ) = p n) (ns : List Node) :
    (ns.map (moved φ)).filter p = (ns.filter p).map (moved φ) := by
  rw [List.filter_map]
  exact congrArg (List.map (moved φ)) (congrArg (List.filter · ns) (funext hp))

theorem child?_moved (n : Node) (role : Role) : (n.moved φ).child? role = (n.child? role).map (moved φ) := by
  rw [child?, child?, children_moved]
  exact find?_moved (fun n => by rw [role_moved]) n.children

theorem parts_moved (n : Node) : (n.moved φ).parts = n.parts.map (moved φ) := by
  rw [parts, parts, children_moved]
  exact filter_moved (fun n => by rw [kind_moved]) n.children

end Node

/-! ### Moved tokens -/

/-- `Moves φ f`: every token becomes one of its class, and every one that is no line end has its ends moved, in a way
that keeps the order. -/
structure Moves (φ : Nat → Nat) (f : Token → Token) : Prop where
  /-- Moving keeps the order. -/
  mono : Monotone φ
  /-- A token stays what it is. -/
  cls (t : Token) : (f t).cls = t.cls
  /-- The ends of a token are moved. -/
  span (t : Token) (h : t.isLineEnd = false) : (f t).span = t.span.moved φ

/-- The match with its nodes and the tokens left over moved. -/
def Match.moved (φ : Nat → Nat) (f : Token → Token) (m : Match) : Match :=
  ⟨m.nodes.map (Node.moved φ), m.span.map (Span.moved φ), m.rest.map f⟩

section Reading

variable {φ : Nat → Nat} {f : Token → Token}

theorem Moves.isLineEnd (hf : Moves φ f) (t : Token) : (f t).isLineEnd = t.isLineEnd := by
  rw [Token.isLineEnd, Token.isLineEnd, hf.cls]

/-- Line ends are passed over as before. -/
theorem Moves.dropWhile_isLineEnd (hf : Moves φ f) (tokens : List Token) :
    (tokens.map f).dropWhile Token.isLineEnd = (tokens.dropWhile Token.isLineEnd).map f := by
  rw [List.dropWhile_map]
  exact congrArg (List.map f) (congrArg (List.dropWhile · tokens) (funext hf.isLineEnd))

/-- The first token that is no line end has its ends moved. -/
theorem Moves.span_of_dropWhile (hf : Moves φ f) {tokens rest : List Token} {t : Token}
    (h : tokens.dropWhile Token.isLineEnd = t :: rest) : (f t).span = t.span.moved φ := by
  refine hf.span t ?_
  have first := List.head?_dropWhile_not Token.isLineEnd tokens
  rw [h] at first
  simpa using first

namespace Match

theorem rest_moved (m : Match) : (m.moved φ f).rest = m.rest.map f := rfl

theorem moved_nothing (tokens : List Token) : (nothing tokens).moved φ f = nothing (tokens.map f) := rfl

theorem moved_followedBy (hφ : Monotone φ) (m later : Match) :
    (m.followedBy later).moved φ f = (m.moved φ f).followedBy (later.moved φ f) := by
  have hull : (hull? m.span later.span).map (Span.moved φ) =
      hull? (m.span.map (Span.moved φ)) (later.span.map (Span.moved φ)) := by
    cases m.span with
    | none => rfl
    | some s =>
        cases later.span with
        | none => rfl
        | some t => exact congrArg some (Span.hull_moved hφ s t).symm
  simp only [moved, followedBy, List.map_append, hull]

theorem moved_gather (kind : Kind) (m : Match) : (m.gather kind).moved φ f = (m.moved φ f).gather kind := by
  cases hspan : m.span <;> simp [moved, gather, hspan, Node.moved_mk]

end Match

namespace Pattern

variable {R : Type} {grammar : R → Pattern R}

mutual

/-- The conditions that a pattern puts on nodes, without those that its rules put on them. -/
def conditions : Pattern R → List (List Node → Bool)
  | token _ | leaf _ _ | statementEnd | sameLine | within _ | rule _ | operand => []
  | sequence ps | choice ps => conditionsAll ps
  | ahead p | notAhead p | many p | node _ p | role _ p | inside _ p => conditions p
  | provided holds p => holds :: conditions p
  | extend p extension | extendMany p extension => conditions p ++ conditions extension

/-- The conditions that several patterns put on nodes. -/
def conditionsAll : List (Pattern R) → List (List Node → Bool)
  | [] => []
  | p :: ps => conditions p ++ conditionsAll ps

end

/-- Whether the patterns among the conditions make no difference between nodes and moved nodes. -/
def Blind (φ : Nat → Nat) (holds : List Node → Bool) : Prop := ∀ nodes, holds (nodes.map (Node.moved φ)) = holds nodes

/-- The patterns of a sequence are read of moved tokens, pattern after pattern, as they are of the tokens. -/
theorem read_sequence_moved (hf : Moves φ f) {fuel : Nat} {context : Context} {left : Match} {ps : List (Pattern R)}
    (ih : ∀ p ∈ ps, ∀ tokens, read grammar fuel context (left.moved φ f) p (tokens.map f) =
      (read grammar fuel context left p tokens).map (Match.moved φ f)) (before : Match) :
    ps.foldlM (fun m p => (read grammar fuel context (left.moved φ f) p m.rest).map m.followedBy) (before.moved φ f) =
      (ps.foldlM (fun m p => (read grammar fuel context left p m.rest).map m.followedBy) before).map
        (Match.moved φ f) := by
  induction ps generalizing before with
  | nil => rfl
  | cons p ps ihps =>
      obtain ⟨first, later⟩ := List.forall_mem_cons.1 ih
      rw [List.foldlM_cons, List.foldlM_cons, Match.rest_moved, first]
      cases read grammar fuel context left p before.rest with
      | none => rfl
      | some m =>
          have := ihps later (before.followedBy m)
          rw [Match.moved_followedBy hf.mono] at this
          exact this

theorem blind_of_mem_conditionsAll {ps : List (Pattern R)} (h : ∀ holds ∈ conditionsAll ps, Blind φ holds)
    {p : Pattern R} (hp : p ∈ ps) : ∀ holds ∈ conditions p, Blind φ holds := by
  induction ps with
  | nil => cases hp
  | cons q ps ih =>
      rw [conditionsAll, List.forall_mem_append] at h
      rcases List.mem_cons.1 hp with rfl | hp
      · exact h.1
      · exact ih h.2 hp

/-- **How moved tokens are read**: as the tokens are, moved. The induction is on the steps that the reader may spend. -/
theorem read_moved (hf : Moves φ f) (hgrammar : ∀ r, ∀ holds ∈ conditions (grammar r), Blind φ holds)
    (fuel : Nat) (context : Context) (left : Match) (p : Pattern R) (tokens : List Token)
    (hp : ∀ holds ∈ conditions p, Blind φ holds) :
    read grammar fuel context (left.moved φ f) p (tokens.map f) =
      (read grammar fuel context left p tokens).map (Match.moved φ f) := by
  induction fuel generalizing context left p tokens with
  | zero => rfl
  | succ fuel ih =>
      cases p with
      | token accepts =>
          rw [read, read, hf.dropWhile_isLineEnd]
          cases h : tokens.dropWhile Token.isLineEnd with
          | nil => rfl
          | cons t rest =>
              rw [List.map_cons]
              dsimp only
              rw [hf.cls, hf.span_of_dropWhile h]
              cases accepts t.cls <;> rfl
      | leaf kind accepts =>
          rw [read, read, hf.dropWhile_isLineEnd]
          cases h : tokens.dropWhile Token.isLineEnd with
          | nil => rfl
          | cons t rest =>
              rw [List.map_cons]
              dsimp only
              rw [hf.cls, hf.span_of_dropWhile h]
              cases accepts t.cls with
              | false => rfl
              | true => simp [Match.moved, Node.moved_mk]
      | statementEnd =>
          cases tokens with
          | nil => simp [read]
          | cons t rest =>
              have ends : (f t).endsStatement = t.endsStatement := by
                rw [Token.endsStatement, Token.endsStatement, hf.cls]
              rw [List.map_cons, read, read, ends]
              cases t.endsStatement <;> rfl
      | sameLine =>
          have first : (tokens.map f).head?.any Token.isLineEnd = tokens.head?.any Token.isLineEnd := by
            cases tokens with
            | nil => rfl
            | cons t rest => exact hf.isLineEnd t
          rw [read, read, first]
          cases context.lineEnds && tokens.head?.any Token.isLineEnd <;> rfl
      | ahead p =>
          rw [read, read, ih context left p tokens hp]
          cases read grammar fuel context left p tokens <;> rfl
      | notAhead p =>
          rw [read, read, ih context left p tokens hp]
          cases read grammar fuel context left p tokens <;> rfl
      | within holds =>
          rw [read, read]
          cases holds context <;> rfl
      | rule r =>
          rw [read, read]
          exact ih context left (grammar r) tokens (hgrammar r)
      | sequence ps =>
          rw [conditions] at hp
          rw [read, read, ← Match.moved_nothing]
          exact read_sequence_moved hf
            (fun p h tokens => ih context left p tokens (blind_of_mem_conditionsAll hp h)) (.nothing tokens)
      | choice ps =>
          rw [conditions] at hp
          rw [read, read]
          induction ps with
          | nil => rfl
          | cons p ps ihps =>
              rw [conditionsAll, List.forall_mem_append] at hp
              rw [List.findSome?_cons, List.findSome?_cons, ih context left p tokens hp.1]
              cases read grammar fuel context left p tokens with
              | none => exact ihps hp.2
              | some m => rfl
      | many p =>
          have inner : ∀ holds ∈ conditions p, Blind φ holds := by rwa [conditions] at hp
          rw [read, read, ih context left p tokens inner]
          cases read grammar fuel context left p tokens with
          | none => rfl
          | some m =>
              have later := ih context left (.many p) m.rest hp
              rw [Option.map_some]
              dsimp only
              rw [Match.rest_moved, later]
              cases read grammar fuel context left (.many p) m.rest with
              | none => rfl
              | some later => exact congrArg some (Match.moved_followedBy hf.mono m later).symm
      | node kind p =>
          rw [read, read, ih context left p tokens hp]
          cases read grammar fuel context left p tokens with
          | none => rfl
          | some m => exact congrArg some (Match.moved_gather kind m).symm
      | role r p =>
          rw [read, read, ih context left p tokens hp]
          cases read grammar fuel context left p tokens with
          | none => rfl
          | some m => simp [Match.moved, Node.inRole_moved, Function.comp_def]
      | inside inner p =>
          rw [read, read]
          exact ih inner left p tokens hp
      | provided holds p =>
          rw [conditions, List.forall_mem_cons] at hp
          rw [read, read, ih context left p tokens hp.2]
          cases read grammar fuel context left p tokens with
          | none => rfl
          | some m =>
              have same : holds (m.moved φ f).nodes = holds m.nodes := hp.1 m.nodes
              rw [Option.map_some, Option.filter_some, Option.filter_some, same]
              cases holds m.nodes <;> rfl
      | operand => rfl
      | extend p extension =>
          rw [conditions, List.forall_mem_append] at hp
          rw [read, read, ih context left p tokens hp.1]
          cases read grammar fuel context left p tokens with
          | none => rfl
          | some m =>
              have extended := ih context m extension m.rest hp.2
              rw [Option.map_some, Option.bind_eq_bind, Option.bind_some, Option.bind_some, Match.rest_moved, extended]
              cases read grammar fuel context m extension m.rest <;> rfl
      | extendMany p extension =>
          rw [conditions, List.forall_mem_append] at hp
          rw [read, read, ih context left p tokens hp.1]
          cases read grammar fuel context left p tokens with
          | none => rfl
          | some m =>
              have extended := ih context m extension m.rest hp.2
              rw [Option.map_some, Option.bind_eq_bind, Option.bind_some, Option.bind_some, Match.rest_moved, extended]
              cases read grammar fuel context m extension m.rest with
              | none => rfl
              | some extended =>
                  exact ih context extended (.extendMany .operand extension) extended.rest
                    (by simpa [conditions] using hp.2)

end Pattern

/-! ### The conditions of the grammar -/

namespace Grammar

open Pattern

theorem blind_any {p : Node → Bool} (hp : ∀ n : Node, p (n.moved φ) = p n) : Blind φ fun nodes => nodes.any p := by
  intro nodes
  simp only [List.any_map, Function.comp_def, hp]

theorem blind_getLast? {p : Node → Bool} (hp : ∀ n : Node, p (n.moved φ) = p n) :
    Blind φ fun nodes => nodes.getLast?.any p := by
  intro nodes
  simp only [List.getLast?_map, Option.any_map, hp]

theorem blind_isTypeName : Blind φ isTypeName :=
  blind_any fun n => by simp [Node.child?_moved, Option.any_map]

theorem blind_endsInExpression : Blind φ endsInExpression :=
  blind_getLast? fun n => by rw [Node.kind_moved]

theorem blind_endsInGuard : Blind φ endsInGuard :=
  blind_getLast? fun n => by simp [Node.child?_moved, Option.any_map, Function.comp_def]

theorem blind_isCommunication : Blind φ isCommunication := blind_any fun n => by rw [Node.kind_moved]

/-- **No condition of the grammar looks at places.** -/
theorem blind_of_mem_conditions (r : Rule) : ∀ holds ∈ conditions (pattern r), Blind φ holds := by
  cases r with
  | primary =>
      intro holds h
      rcases (h : holds ∈ [_, _, isTypeName]) with _ | ⟨_, _ | ⟨_, _ | ⟨_, h⟩⟩⟩
      · exact blind_any fun n => by rw [Node.kind_moved]
      · exact blind_any fun n => by rw [Node.kind_moved]
      · exact blind_isTypeName
      · cases h
  | statement =>
      intro holds h
      rcases (h : holds ∈ [_, endsInGuard, endsInExpression, isCommunication]) with
        _ | ⟨_, _ | ⟨_, _ | ⟨_, _ | ⟨_, h⟩⟩⟩⟩
      · exact blind_any fun n => by rw [Node.kind_moved]
      · exact blind_endsInGuard
      · exact blind_endsInExpression
      · exact blind_isCommunication
      · cases h
  | ifStatement =>
      intro holds h
      obtain rfl := List.mem_singleton.1 h
      exact blind_endsInExpression
  | _ =>
      intro holds h
      exact absurd h List.not_mem_nil

theorem blind_of_mem_conditions_sourceItems : ∀ holds ∈ conditions sourceItems, Blind φ holds := by
  intro holds h
  exact absurd h List.not_mem_nil

end Grammar

/-- **The items of a source whose tokens have been moved** are its items, moved. -/
theorem Source.items?_moved (hf : Moves φ f) (tokens : List Token) :
    Source.items? (tokens.map f) = (Source.items? tokens).map (List.map (Node.moved φ)) := by
  have read := Pattern.read_moved hf Grammar.blind_of_mem_conditions (steps tokens) .statement (.nothing [])
    Grammar.sourceItems tokens Grammar.blind_of_mem_conditions_sourceItems
  have same : steps (tokens.map f) = steps tokens := by rw [steps, steps, List.length_map]
  rw [items?, items?, same]
  rw [Match.moved_nothing, List.map_nil] at read
  rw [read]
  cases Grammar.sourceItems.read Grammar.pattern (steps tokens) .statement (.nothing []) tokens with
  | none => rfl
  | some m =>
      have rest : (m.moved φ f).rest.all Token.isLineEnd = m.rest.all Token.isLineEnd := by
        rw [Match.moved, List.all_map]
        exact congrArg (List.all m.rest) (funext hf.isLineEnd)
      rw [Option.map_some, Option.bind_eq_bind, Option.bind_some, Option.bind_some, rest]
      cases m.rest.all Token.isLineEnd <;> rfl

end Reading

end Go

end SuiteReport
