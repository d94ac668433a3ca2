import Mathlib.Data.List.Forall2
import SuiteReport.Proofs.LineEnds.Content
import SuiteReport.Proofs.Source.Moving
import SuiteReport.Proofs.Source.Words
import SuiteReport.Proofs.StringLiteral
/-!
# Names with carriage returns

A string literal means the same with carriage returns before its line feeds: a raw one leaves them out, and an
interpreted one may not have line feeds at all. So the names that an expression stands for change only where source text
is used as it is written, and there just by the carriage returns.

## Main definitions

* `ReturnedIn`: whether a text becomes another one when parts of it are written with carriage returns.
* `NameExpression.written`: the texts that an expression uses as they are written.

## Main results

* `StringLiteral.decode?_returnedText`: what a string literal means with carriage returns.
* `NameExpression.names_returned`, `NameExpression.elements_returned`: the names of an expression and the values of a
  literal with carriage returns.
-/

namespace SuiteReport

/-! ### Texts with carriage returns in parts of them -/

/-- `ReturnedIn written a b`: the second text is the first one, where some of the parts that are written texts have
carriage returns before their line feeds. -/
inductive ReturnedIn (written : String → Prop) : String → String → Prop
  /-- A text may stay as it is. -/
  | same (text : String) : ReturnedIn written text text
  /-- A written text may have carriage returns. -/
  | part {text : String} (h : written text) : ReturnedIn written text (String.ofList (returnedText text.toList))
  /-- Texts may be put together. -/
  | append {a a' b b' : String} (h : ReturnedIn written a a') (hb : ReturnedIn written b b') :
      ReturnedIn written (a ++ b) (a' ++ b')

namespace ReturnedIn

variable {written : String → Prop} {a a' b b' : String}

/-- Without line feeds in the written texts nothing changes. -/
theorem eq_of_oneLine (hwritten : ∀ text, written text → '\n' ∉ text.toList) (h : ReturnedIn written a b) : b = a := by
  induction h with
  | same text => rfl
  | @part text h =>
      rw [returnedText_eq_self (hwritten text h), String.ofList_toList]
  | append _ _ ih ihb => rw [ih, ihb]

/-- A change to every character that keeps line feeds apart from other characters keeps the relation. -/
theorem map {change : Char → Char} (hfeed : ∀ c, change c = '\n' ↔ c = '\n') (hreturn : change '\r' = '\r')
    (h : ReturnedIn written a b) :
    ReturnedIn (fun text => ∃ t, written t ∧ text = String.ofList (t.toList.map change))
      (String.ofList (a.toList.map change)) (String.ofList (b.toList.map change)) := by
  induction h with
  | same text => exact .same _
  | @part text h =>
      have commutes (cs : List Char) : (returnedText cs).map change = returnedText (cs.map change) := by
        induction cs with
        | nil => rfl
        | cons c cs ih =>
            by_cases hc : c = '\n'
            · subst hc
              rw [returnedText_feed, List.map_cons, List.map_cons, List.map_cons, ih, hreturn, (hfeed '\n').2 rfl,
                returnedText_feed]
            · rw [returnedText_cons hc, List.map_cons, List.map_cons, ih, returnedText_cons (mt (hfeed c).1 hc)]
      have whole : ReturnedIn (fun text => ∃ t, written t ∧ text = String.ofList (t.toList.map change)) _ _ :=
        .part ⟨text, h, rfl⟩
      rw [String.toList_ofList, ← commutes] at whole
      rwa [String.toList_ofList]
  | append _ _ ih ihb =>
      have whole := ih.append ihb
      rw [← String.ofList_append, ← String.ofList_append, ← List.map_append, ← List.map_append, ← String.toList_append,
        ← String.toList_append] at whole
      exact whole

end ReturnedIn

/-- The segments that texts contribute to machine names. -/
def segmentsOf (W : String → Prop) (segment : String) : Prop := ∃ text, W text ∧ segment = machineSegment text

/-- The segments of texts on one line are on one line. -/
theorem newline_notMem_of_segmentsOf {W : String → Prop} (h : ∀ text, W text → '\n' ∉ text.toList) :
    ∀ segment, segmentsOf W segment → '\n' ∉ segment.toList := by
  rintro _ ⟨text, htext, rfl⟩ hfeed
  rw [machineSegment, String.toList_ofList] at hfeed
  obtain ⟨c, hc, heq⟩ := List.mem_map.1 hfeed
  split at heq
  · cases heq
  · exact h text htext (heq ▸ hc)

/-- The segment of a name has the carriage returns that the name has. -/
theorem ReturnedIn.machineSegment {W : String → Prop} {a b : String} (h : ReturnedIn W a b) :
    ReturnedIn (segmentsOf W) (machineSegment a) (machineSegment b) := by
  refine h.map (fun c => ?_) (by decide)
  by_cases hc : c = ' '
  · simp [hc]
  · simp [hc]

/-- The machine name of a sub-test has the carriage returns that its name and the machine name above it have. -/
theorem ReturnedIn.childMachineName {W : String → Prop} {parent parent' a b : String}
    (hparent : ReturnedIn (segmentsOf W) parent parent') (h : ReturnedIn W a b) :
    ReturnedIn (segmentsOf W) (childMachineName parent a) (childMachineName parent' b) :=
  (hparent.append (.same _)).append h.machineSegment

/-! ### String literals -/

namespace Go.StringLiteral

/-- A text stands between quotes if it did. -/
theorem between?_returnedText {quote : Char} (hfeed : quote ≠ '\n') (hreturn : quote ≠ '\r') (cs : List Char) :
    between? quote (returnedText cs) = (between? quote cs).map returnedText := by
  cases cs with
  | nil => rfl
  | cons c rest =>
      by_cases hc : c = '\n'
      · subst hc
        rw [returnedText_feed, between?, between?, if_neg fun h => hreturn h.1.symm, if_neg fun h => hfeed h.1.symm]
        rfl
      · rw [returnedText_cons hc, between?, between?, getLast?_returnedText]
        split
        · rename_i h
          obtain ⟨init, rfl⟩ := List.getLast?_eq_some_iff.1 h.2
          have last : returnedText [quote] = [quote] := returnedText_cons hfeed []
          rw [returnedText_append, last, List.dropLast_concat, List.dropLast_concat, Option.map_some]
        · rfl

/-- No escape holds a line feed. -/
theorem newline_notMem_of_escape {s : List Char} {bytes : Bytes} (h : Escape s bytes) : '\n' ∉ s := by
  have numeral {radix count n : Nat} {s : List Char} (h : Numeral radix count s n) : '\n' ∉ s := by
    obtain ⟨-, ds, hds, -⟩ := h
    induction hds with
    | nil => exact List.not_mem_nil
    | @cons c d s ds hdigit _ ih =>
        have known : ∀ entry ∈ digitValues, '\n' ≠ entry.1 := by decide
        exact fun hmem => (List.mem_cons.1 hmem).elim (known (c, d) hdigit.1) ih
  cases h with
  | @simple letter c h =>
      have known : ∀ entry ∈ simpleEscapes, '\n' ≠ entry.1 := by decide
      exact mt List.mem_singleton.1 (known (letter, c) h)
  | hexadecimal h => simpa using numeral h
  | octal h => exact numeral h
  | shortScalar h => simpa using numeral h
  | longScalar h => simpa using numeral h

/-- The body of an interpreted literal holds no line feed. -/
theorem newline_notMem_of_body {s : List Char} {bytes : Bytes} (h : Body s bytes) : '\n' ∉ s := by
  induction h with
  | nil => exact List.not_mem_nil
  | cons h _ ih =>
      refine fun hmem => (List.mem_append.1 hmem).elim ?_ ih
      cases h with
      | plain hline => simpa using hline.symm
      | escape h => simpa using newline_notMem_of_escape h

/-- A body means what it means with carriage returns: nothing, if there are line feeds in it. -/
theorem interpreted?_returnedText (body : List Char) : interpreted? (returnedText body) = interpreted? body := by
  by_cases h : '\n' ∈ body
  · have none {s : List Char} (h : '\n' ∈ s) : interpreted? s = none := by
      rw [interpreted?]
      cases hitems : items? s with
      | none => rfl
      | some items => exact absurd h (newline_notMem_of_body (body_of_items? hitems))
    rw [none h, none (s := returnedText body) (subset_marked h)]
  · rw [returnedText_eq_self h]

/-- **A string literal means the same** with carriage returns before its line feeds. -/
theorem decode?_returnedText (literal : String) :
    decode? (String.ofList (returnedText literal.toList)) = decode? literal := by
  have raw := between?_returnedText (by decide : backQuote ≠ '\n') (by decide) literal.toList
  have interpreted := between?_returnedText (by decide : '"' ≠ '\n') (by decide) literal.toList
  rw [decode?, decode?, decodeChars?, decodeChars?, String.toList_ofList, raw, interpreted]
  cases between? backQuote literal.toList with
  | some body =>
      have same : (returnedText body).filter (· != '\r') = body.filter (· != '\r') := filter_marked rfl
      rw [Option.map_some]
      exact congrArg (fun cs => some (String.ofList cs)) same
  | none =>
      cases between? '"' literal.toList with
      | none => rfl
      | some body => exact congrArg (Option.map String.ofList) (interpreted?_returnedText body)

end Go.StringLiteral

namespace Go

open Bytes (returned)

variable {content : Bytes} {bindings bindings' : List LoopBinding} {W : String → Prop}

/-- The text of a moved node has carriage returns before its line feeds. -/
theorem Node.text_moved (n : Node) :
    (n.moved (Bytes.moved content)).text (returned content) = String.ofList (returnedText (n.text content).toList) := by
  rw [Node.text, Node.text, Node.span_moved]
  exact Bytes.text_returned content n.span

/-- What the search for sub-tests looks at is found among moved nodes. -/
theorem Node.keeps_moved (φ : Nat → Nat) : Node.Keeps (Node.moved φ) where
  kind := Node.kind_moved
  child? := Node.child?_moved
  parts := Node.parts_moved
  range n := by
    rw [Node.children_moved]
    exact Node.find?_moved (fun n => by rw [Node.kind_moved]) n.children

/-- `Returned W b b'`: the second variable is the first one, and its values are those of the first with carriage returns
in some written texts. -/
structure LoopBinding.Returned (W : String → Prop) (b b' : LoopBinding) : Prop where
  /-- The variable is the same. -/
  name : b'.name = b.name
  /-- The values have carriage returns. -/
  values : List.Forall₂ (ReturnedIn W) b.values b'.values

namespace NameExpression

/-! ### Texts that are used as they are written -/

mutual

/-- The texts that an expression uses as they are written. What the text of a malformed literal or of an expression that
is not followed is used for is the text itself; an identifier is on one line, whatever it stands for. -/
def written (content : Bytes) : Node → List String
  | ⟨kind, _, span, children⟩ =>
    let text := content.text span
    match kind with
    | .interpretedString | .rawString => if (StringLiteral.decode? text).isSome then [] else [text]
    | .identifier => []
    | .sum =>
      match writtenOperand? content .left children, writtenOperand? content .right children with
      | some lefts, some rights => lefts ++ rights
      | _, _ => [text]
    | _ => [text]

/-- The texts that the first of the nodes in a role uses as they are written. -/
def writtenOperand? (content : Bytes) (role : Role) : List Node → Option (List String)
  | [] => none
  | n :: later => if n.role = some role then some (written content n) else writtenOperand? content role later

end

/-- The value itself that an element is or gives. -/
def valueNode (element : Node) : Node :=
  if element.kind = .literalElement then element.parts.head?.getD element else element

/-- The texts that a composite literal uses as they are written. -/
def writtenElements (content : Bytes) (collection : Node) : List String :=
  if collection.kind = .compositeLiteral then
    match collection.child? .body with
    | none => []
    | some body => ((body.parts.map valueNode).filter fun value => !value.isString).map (·.text content)
  else
    []

/-! ### Names -/

/-- A sum lacks an operand if no child is in its role. -/
theorem operandNames?_eq_none_iff {role : Role} {ns : List Node} :
    operandNames? content bindings role ns = none ↔ ∀ n ∈ ns, n.role ≠ some role := by
  induction ns with
  | nil => simp [operandNames?]
  | cons n later ih =>
      rw [operandNames?, List.forall_mem_cons]
      by_cases h : n.role = some role <;> simp [h, ih]

theorem writtenOperand?_eq_none_iff {role : Role} {ns : List Node} :
    writtenOperand? content role ns = none ↔ ∀ n ∈ ns, n.role ≠ some role := by
  induction ns with
  | nil => simp [writtenOperand?]
  | cons n later ih =>
      rw [writtenOperand?, List.forall_mem_cons]
      by_cases h : n.role = some role <;> simp [h, ih]

/-- An operand that is missing is missing with carriage returns too. -/
theorem operandNames?_of_missing {role : Role} {ns : List Node} (bindings bindings' : List LoopBinding)
    (h : writtenOperand? content role ns = none) :
    operandNames? content bindings role ns = none ∧
      operandNames? (returned content) bindings' role (Node.movedAll (Bytes.moved content) ns) = none := by
  rw [operandNames?_eq_none_iff, operandNames?_eq_none_iff, Node.movedAll_eq_map, List.forall_mem_map]
  simpa using writtenOperand?_eq_none_iff.1 h

/-- A variable has the values that it had, with carriage returns in some of them. -/
theorem ofVariable_returned (hbindings : List.Forall₂ (LoopBinding.Returned W) bindings bindings') (name : String) :
    List.Forall₂ (ReturnedIn W) (ofVariable bindings name) (ofVariable bindings' name) := by
  have found : List.Forall₂ (LoopBinding.Returned W) (bindings.reverse.filter (·.name == name))
      (bindings'.reverse.filter (·.name == name)) := by
    refine List.rel_filter (fun b b' hb => ?_) (List.forall₂_reverse_iff.2 hbindings)
    dsimp only
    rw [hb.name]
  rw [ofVariable, ofVariable, innermost?, innermost?, ← List.head?_filter, ← List.head?_filter]
  generalize bindings.reverse.filter (·.name == name) = first at found
  generalize bindings'.reverse.filter (·.name == name) = first' at found
  cases found with
  | nil => exact .cons (.same name) .nil
  | @cons b b' _ _ hb _ =>
      obtain ⟨_, values⟩ := b
      obtain ⟨_, values'⟩ := b'
      have hvalues : List.Forall₂ (ReturnedIn W) values values' := hb.values
      simp only [List.head?_cons, Option.map_some]
      cases hvalues with
      | nil => exact .cons (.same name) .nil
      | cons hvalue hlater => exact .cons hvalue hlater

/-- A text that is used as it is written has carriage returns in it. -/
theorem written_returned {span : Span} (h : W (content.text span)) :
    List.Forall₂ (ReturnedIn W) [content.text span] [(returned content).text (span.moved (Bytes.moved content))] := by
  refine .cons ?_ .nil
  rw [show (returned content).text (span.moved (Bytes.moved content)) = _ from Bytes.text_returned content span]
  exact .part h

/-- A literal means what it meant. If it means nothing, it is used as it is written. -/
theorem meaning_returned {span : Span}
    (h : ∀ t ∈ if (StringLiteral.decode? (content.text span)).isSome then [] else [content.text span], W t) :
    List.Forall₂ (ReturnedIn W) [(StringLiteral.decode? (content.text span)).getD (content.text span)]
      [(StringLiteral.decode? ((returned content).text (span.moved (Bytes.moved content)))).getD
        ((returned content).text (span.moved (Bytes.moved content)))] := by
  have means : StringLiteral.decode? ((returned content).text (span.moved (Bytes.moved content))) =
      StringLiteral.decode? (content.text span) := by
    rw [← StringLiteral.decode?_returnedText (content.text span), ← Bytes.text_returned content span]
    rfl
  rw [means]
  cases hmeans : StringLiteral.decode? (content.text span) with
  | some meaning => exact .cons (.same meaning) .nil
  | none =>
      rw [hmeans] at h
      exact written_returned (h _ List.mem_cons_self)

mutual

/-- **The names of an expression** with carriage returns: texts that are used as they are written may have carriage
returns, and nothing else changes. -/
theorem names_returned (hbindings : List.Forall₂ (LoopBinding.Returned W) bindings bindings') :
    ∀ n : Node, (∀ text ∈ written content n, W text) →
      n.Every (fun m => m.kind = .identifier → '\n' ∉ (m.text content).toList) →
      List.Forall₂ (ReturnedIn W) (names content bindings n)
        (names (returned content) bindings' (n.moved (Bytes.moved content)))
  | ⟨kind, role, span, children⟩, hwritten, hwords => by
      have whole (h : W (content.text span)) := written_returned h
      rw [Node.moved]
      cases kind with
      | interpretedString => exact meaning_returned hwritten
      | rawString => exact meaning_returned hwritten
      | identifier =>
          have same : (returned content).text (span.moved (Bytes.moved content)) = content.text span := by
            have line : '\n' ∉ (content.text span).toList := hwords.root rfl
            have text := Bytes.text_returned content span
            rw [returnedText_eq_self line, String.ofList_toList] at text
            exact text
          simp only [names, same]
          exact ofVariable_returned hbindings _
      | sum =>
          have inside : ∀ n ∈ children, n.Every fun m => m.kind = .identifier → '\n' ∉ (m.text content).toList :=
            fun n hn => hwords.child hn
          rw [written] at hwritten
          rw [names, names]
          cases hl : writtenOperand? content .left children with
          | none =>
              obtain ⟨missing, missing'⟩ := operandNames?_of_missing bindings bindings' hl
              rw [hl] at hwritten
              rw [missing, missing']
              exact whole (hwritten _ List.mem_cons_self)
          | some lefts =>
              cases hr : writtenOperand? content .right children with
              | none =>
                  obtain ⟨missing, missing'⟩ := operandNames?_of_missing bindings bindings' hr
                  rw [hl, hr] at hwritten
                  rw [missing, missing']
                  have part := whole (hwritten _ List.mem_cons_self)
                  cases operandNames? content bindings .left children <;>
                    cases operandNames? (returned content) bindings' .left
                      (Node.movedAll (Bytes.moved content) children) <;>
                    exact part
              | some rights =>
                  rw [hl, hr] at hwritten
                  obtain ⟨left, left', hleft, hleft', lefts⟩ := operandNames?_returned hbindings .left children hl
                    (fun text ht => hwritten text (List.mem_append_left _ ht)) inside
                  obtain ⟨right, right', hright, hright', rights⟩ := operandNames?_returned hbindings .right children hr
                    (fun text ht => hwritten text (List.mem_append_right _ ht)) inside
                  rw [hleft, hleft', hright, hright']
                  exact List.rel_flatMap lefts fun _ _ h => List.rel_map (fun _ _ h' => h.append h') rights
      | _ => exact whole (hwritten _ List.mem_cons_self)

/-- The names of the operand in a role with carriage returns. -/
theorem operandNames?_returned (hbindings : List.Forall₂ (LoopBinding.Returned W) bindings bindings') (role : Role) :
    ∀ (ns : List Node) {texts : List String}, writtenOperand? content role ns = some texts →
      (∀ text ∈ texts, W text) →
      (∀ n ∈ ns, n.Every (fun m => m.kind = .identifier → '\n' ∉ (m.text content).toList)) →
      ∃ first later, operandNames? content bindings role ns = some first ∧
        operandNames? (returned content) bindings' role (Node.movedAll (Bytes.moved content) ns) = some later ∧
        List.Forall₂ (ReturnedIn W) first later
  | [], _, h, _, _ => by cases h
  | n :: later, texts, h, hwritten, hwords => by
      rw [List.forall_mem_cons] at hwords
      rw [writtenOperand?] at h
      rw [Node.movedAll, operandNames?, operandNames?, Node.role_moved]
      split at h
      · rename_i hrole
        obtain rfl := Option.some.inj h
        rw [if_pos hrole, if_pos hrole]
        exact ⟨_, _, rfl, rfl, names_returned hbindings n hwritten hwords.1⟩
      · rename_i hrole
        rw [if_neg hrole, if_neg hrole]
        exact operandNames?_returned hbindings role later h hwritten hwords.2

end

/-! ### Values -/

theorem valueNode_moved (φ : Nat → Nat) (n : Node) : valueNode (n.moved φ) = (valueNode n).moved φ := by
  rw [valueNode, valueNode, Node.kind_moved, Node.parts_moved, List.head?_map]
  split
  · cases n.parts.head? <;> rfl
  · rfl

/-- The value of an element with carriage returns. -/
theorem value?_returned (n : Node) (hwritten : (valueNode n).isString = false → W ((valueNode n).text content)) :
    Option.Rel (ReturnedIn W) (value? content n) (value? (returned content) (n.moved (Bytes.moved content))) := by
  have eq (content : Bytes) (n : Node) : value? content n =
      if (valueNode n).isString then StringLiteral.decode? ((valueNode n).text content)
      else some ((valueNode n).text content) := rfl
  have string : ((valueNode n).moved (Bytes.moved content)).isString = (valueNode n).isString := by
    rw [Node.isString, Node.isString, Node.kind_moved]
  rw [eq, eq, valueNode_moved, string, Node.text_moved, StringLiteral.decode?_returnedText]
  cases hstring : (valueNode n).isString with
  | true =>
      rw [if_pos rfl, if_pos rfl]
      cases StringLiteral.decode? ((valueNode n).text content) with
      | none => exact .none
      | some meaning => exact .some (.same meaning)
  | false => exact .some (.part (hwritten hstring))

/-- **The values of a composite literal** with carriage returns: texts that are used as they are written may have
carriage returns, and nothing else changes. -/
theorem elements_returned (n : Node) (hwritten : ∀ text ∈ writtenElements content n, W text) :
    List.Forall₂ (ReturnedIn W) (elements content n)
      (elements (returned content) (n.moved (Bytes.moved content))) := by
  rw [writtenElements] at hwritten
  rw [elements, elements, Node.kind_moved, Node.child?_moved]
  split
  · rename_i hkind
    rw [if_pos hkind] at hwritten
    cases hbody : n.child? .body with
    | none => exact .nil
    | some body =>
        rw [hbody] at hwritten
        rw [Option.map_some]
        dsimp only at hwritten ⊢
        rw [Node.parts_moved, List.filterMap_map]
        have parts : List.Forall₂ (fun n m => m = n ∧ n ∈ body.parts) body.parts body.parts :=
          List.forall₂_same.2 fun n hn => ⟨rfl, hn⟩
        refine List.rel_filterMap ?_ parts
        rintro n m ⟨rfl, hn⟩
        change Option.Rel _ (value? content m) (value? (returned content) (m.moved (Bytes.moved content)))
        refine value?_returned m fun hstring => hwritten _ ?_
        exact List.mem_map_of_mem (List.mem_filter.2 ⟨List.mem_map_of_mem hn, by rw [hstring]; rfl⟩)
  · exact .nil

end NameExpression

end Go

end SuiteReport
