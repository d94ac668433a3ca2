import SuiteReport.Proofs.LineEnds.Name
import SuiteReport.Proofs.Subtest.Expansion
import SuiteReport.Proofs.Subtest.Relocation
/-!
# The units of a loop over texts

A loop that goes through a list of texts runs what is registered in its body once for each of them. The search for
sub-tests does the same: where a name joins the variable of the loop to other texts, there is one unit for each element,
in the order of the elements, and elements that are the same give units that are. The units differ in their names and
machine names only. They have the same comment, and what is found below them is the same, as the function of the
registration is searched for each of them anew, below the machine name of the unit.

## Main definitions

* `Node.GoesThrough`: a loop that goes through string literals.
* `Occurrence.InLoop`: an occurrence in such a loop, with no other loop between them that hides its variable.

## Main results

* `names_of_addends`: the names that a variable gives if texts stand around it.
* `units_of_inLoop`: the units of a registration in a loop over string literals.
-/

namespace SuiteReport.Go

variable {content : Bytes} {v : String} {values : List String}

/-! ### Loops over string literals -/

/-- The text that a string literal is in a name: what it means, or the literal as it is written if it is malformed. -/
def Node.literalText (content : Bytes) (n : Node) : String :=
  (StringLiteral.decode? (n.text content)).getD (n.text content)

/-- `loop.GoesThrough content v values`: the loop has the variable `v` for the elements of a composite literal. All of
these are string literals, with comments between them or not, and the well-formed ones mean the values. -/
structure Node.GoesThrough (content : Bytes) (loop : Node) (v : String) (values : List String) : Prop where
  /-- The variable of the loop. -/
  declares : ∃ declared ∈ loop.rangeVariable?, declared.text content = v
  /-- The elements of the literal. -/
  elements : ∃ literal ∈ loop.rangeLiteral?, ∃ body ∈ literal.child? .body,
    (∀ e ∈ body.parts, (NameExpression.valueNode e).isString) ∧
      body.parts.filterMap (fun e => StringLiteral.decode? ((NameExpression.valueNode e).text content)) = values

instance (content : Bytes) (loop : Node) (v : String) (values : List String) :
    Decidable (loop.GoesThrough content v values) :=
  decidable_of_iff (_ ∧ _) ⟨fun h => ⟨h.1, h.2⟩, fun h => ⟨h.1, h.2⟩⟩

/-- The values of the variable are known from the loop. -/
theorem Node.GoesThrough.rangeBinding?_eq {loop : Node} (h : loop.GoesThrough content v values) :
    loop.rangeBinding? content = some ⟨v, values⟩ := by
  obtain ⟨⟨declared, hdeclared, rfl⟩, literal, hliteral, body, hbody, hstrings, rfl⟩ := h
  obtain ⟨clause, hclause, hfilter⟩ := Option.bind_eq_some_iff.1 hliteral
  have composite : literal.kind = .compositeLiteral := by simpa using (Option.filter_eq_some_iff.1 hfilter).2
  have value? (e : Node) (he : e ∈ body.parts) : NameExpression.value? content e =
      StringLiteral.decode? ((NameExpression.valueNode e).text content) := by
    have eq : NameExpression.value? content e =
        if (NameExpression.valueNode e).isString then
          StringLiteral.decode? ((NameExpression.valueNode e).text content)
        else some ((NameExpression.valueNode e).text content) := rfl
    rw [eq, if_pos (hstrings e he)]
  have elements : NameExpression.elements content literal =
      body.parts.filterMap fun e => StringLiteral.decode? ((NameExpression.valueNode e).text content) := by
    rw [NameExpression.elements, if_pos composite, hbody]
    exact List.filterMap_congr value?
  rw [rangeBinding?, hliteral, hdeclared, Option.bind_some, Option.map_some, elements]

/-- `o.InLoop content v values`: a loop around the occurrence goes through the values, and no loop between the two
makes other values of its variable known. -/
def Occurrence.InLoop (content : Bytes) (o : Occurrence) (v : String) (values : List String) : Prop :=
  ∃ outer d inner, o.path = outer ++ d :: inner ∧ d.node.GoesThrough content v values ∧
    ∀ between ∈ inner, ∀ b ∈ between.node.rangeBinding? content, b.name ≠ v

/-- A loop around an occurrence may be told by its number among the steps down to it. -/
theorem Occurrence.InLoop.of_getElem? {o : Occurrence} {i : Nat} {d : Descent} (hd : o.path[i]? = some d)
    (hloop : d.node.GoesThrough content v values)
    (hinner : ∀ between ∈ o.path.drop (i + 1), ∀ b ∈ between.node.rangeBinding? content, b.name ≠ v) :
    o.InLoop content v values := by
  obtain ⟨hi, rfl⟩ := List.getElem?_eq_some_iff.1 hd
  exact ⟨o.path.take i, _, _, by rw [← List.drop_eq_getElem_cons hi, List.take_append_drop], hloop, hinner⟩

/-- The values of the loop are what is known of its variable, whatever is known outside it. -/
theorem Occurrence.InLoop.innermost?_eq {o : Occurrence} (h : o.InLoop content v values) (bindings : List LoopBinding) :
    NameExpression.innermost? (bindings ++ o.bindings content) v = some values := by
  obtain ⟨outer, d, inner, hpath, hloop, hinner⟩ := h
  have known : o.bindings content =
      outer.filterMap (·.node.rangeBinding? content) ++
        ([⟨v, values⟩] ++ inner.filterMap (·.node.rangeBinding? content)) := by
    rw [Occurrence.bindings, hpath, List.filterMap_append, List.filterMap_cons, hloop.rangeBinding?_eq]
    rfl
  have between : NameExpression.innermost? (inner.filterMap (·.node.rangeBinding? content)) v = none := by
    refine innermost?_eq_none_iff.2 fun b hb => ?_
    obtain ⟨e, he, hb⟩ := List.mem_filterMap.1 hb
    exact hinner e he b hb
  rw [known, innermost?_append, innermost?_append, innermost?_append, between]
  simp [NameExpression.innermost?]

/-! ### Names with one variable -/

/-- A string literal is one text in a name, whatever is known of variables. -/
theorem Node.leafValues_of_isString {n : Node} (h : n.isString) (bindings : List LoopBinding) :
    n.leafValues content bindings = [n.literalText content] := by
  rw [isString, Bool.or_eq_true, beq_iff_eq, beq_iff_eq] at h
  have other : n.kind ≠ .identifier := by rcases h with h | h <;> simp [h]
  rw [leafValues, valuesOf, if_neg other, if_pos h, literalText]

/-- **Texts around a variable** stand around each of its values in the names. -/
theorem names_of_addends {bindings : List LoopBinding} {name x : Node} {lefts rights : List Node}
    (haddends : name.addends = lefts ++ x :: rights) (hlefts : ∀ l ∈ lefts, l.isString)
    (hrights : ∀ r ∈ rights, r.isString) (hx : x.kind = .identifier) (hv : x.text content = v)
    (hknown : NameExpression.innermost? bindings v = some values) (hvalues : values ≠ []) :
    NameExpression.names content bindings name = values.map fun value =>
      String.join (lefts.map (·.literalText content)) ++ value ++
        String.join (rights.map (·.literalText content)) := by
  have texts {ns : List Node} (h : ∀ n ∈ ns, n.isString) :
      ns.map (·.leafValues content bindings) = ns.map fun n => [n.literalText content] :=
    List.map_congr_left fun n hn => Node.leafValues_of_isString (h n hn) bindings
  have looped : x.leafValues content bindings = values := by
    rw [Node.leafValues, Node.valuesOf, if_pos hx, hv, hknown, Option.getD_some, if_neg hvalues]
  rw [names_eq_combinations_addends, haddends, List.map_append, List.map_cons, texts hlefts, texts hrights, looped,
    combinations_append, combinations, combinations_map_singleton, combinations_map_singleton]
  simp [List.map_eq_flatMap, List.flatMap_assoc, String.append_assoc]

/-! ### The units of a loop -/

variable {s : Scope} {body : Node}

/-- The sub-tests of a unit below another unit are those found in the function of its registration. -/
theorem map_relocated_of_mem_units {parent : String} {bindings : List LoopBinding} {call name : Node} {u : TestUnit}
    (hname : call.nameArgument? = some name) (hu : u ∈ s.units parent bindings call) (common : String) :
    u.subtests.map (TestUnit.relocated u.machineName common) =
      (call.callbackBody?.map fun inner => subtests s inner common bindings).getD [] := by
  rw [(of_mem_units hname hu).2]
  cases call.callbackBody? with
  | none => rfl
  | some inner => exact (subtests_eq_map_relocated s inner _ common fun _ => rfl).symm

/-- **A loop over string literals gives one unit for each element.** Take a registration in a loop that goes through
some values, at least one, and whose name joins string literals and the variable of the loop, written once. Among the
units below the body it contributes one unit for each value, side by side in the order of the values, between those of
the registrations before and after it. The name of each is that of its value with the texts of the literals around it,
the machine name is made from this name, and the comment is the same for all. The machine names below each unit begin
with its own; and with another beginning, the same for all, the sub-tests of all units are the same. -/
theorem units_of_inLoop (parent : String) (bindings : List LoopBinding) {o : Occurrence}
    {earlier later : List Occurrence} {name x : Node} {lefts rights : List Node}
    (ho : s.registrations body = earlier ++ o :: later) (hloop : o.InLoop s.content v values) (hvalues : values ≠ [])
    (hname : o.node.nameArgument? = some name) (haddends : name.addends = lefts ++ x :: rights)
    (hlefts : ∀ l ∈ lefts, l.isString) (hrights : ∀ r ∈ rights, r.isString) (hx : x.kind = .identifier)
    (hv : x.text s.content = v) :
    ∃ units,
      subtests s body parent bindings =
          (earlier.flatMap fun o => s.units parent (bindings ++ o.bindings s.content) o.node) ++ units ++
            (later.flatMap fun o => s.units parent (bindings ++ o.bindings s.content) o.node) ∧
        List.Forall₂ (fun value u =>
          u.name = String.join (lefts.map (·.literalText s.content)) ++ value ++
              String.join (rights.map (·.literalText s.content)) ∧
            u.machineName = parent ++ "/" ++ machineSegment u.name ∧ u.comment = s.comment o.node) values units ∧
        (∀ u ∈ units, ∀ below ∈ TestUnit.preorderAll u.subtests, ∃ rest, below.machineName = u.machineName ++ rest) ∧
        ∀ u ∈ units, ∀ u' ∈ units, ∀ common,
          u.subtests.map (TestUnit.relocated u.machineName common) =
            u'.subtests.map (TestUnit.relocated u'.machineName common) := by
  refine ⟨s.units parent (bindings ++ o.bindings s.content) o.node, ?_, ?_, ?_, ?_⟩
  · rw [subtests_eq_gather, Scope.gather, ho, List.flatMap_append, List.flatMap_cons, List.append_assoc]
  · have names := names_of_addends haddends hlefts hrights hx hv (hloop.innermost?_eq bindings) hvalues
    rw [Scope.units, Scope.namesOf, hname, Option.map_some, Option.getD_some, names, List.map_map]
    exact List.forall₂_map_right_iff.2 (List.forall₂_same.2 fun _ _ => ⟨rfl, rfl, rfl⟩)
  · intro u hu below hbelow
    rw [(of_mem_units hname hu).2] at hbelow
    cases hb : o.node.callbackBody? with
    | none =>
        rw [hb] at hbelow
        cases hbelow
    | some inner =>
        rw [hb] at hbelow
        exact exists_machineName_eq_append hbelow
  · intro u hu u' hu' common
    rw [map_relocated_of_mem_units hname hu, map_relocated_of_mem_units hname hu']

/-- The lone registration in the first function of a file, with the file and the body of the function. -/
def Source.loneRegistration? (text : String) : Option (Source × Node × Occurrence) := do
  let f ← Source.parse? (Bytes.ofString text)
  let function ← f.functions.head?
  let body ← function.child? .body
  let o ← ((f.scope {}).registrations body).head?
  guard (((f.scope {}).registrations body).length = 1)
  return (f, body, o)

/-- Where the lone registration is found. -/
theorem Source.of_loneRegistration? {text : String} {f : Source} {body : Node} {o : Occurrence}
    (h : Source.loneRegistration? text = some (f, body, o)) :
    Source.parse? (Bytes.ofString text) = some f ∧ (∃ function ∈ f.functions, function.child? .body = some body) ∧
      (f.scope {}).registrations body = [o] := by
  simp only [Source.loneRegistration?, Option.bind_eq_bind, Option.bind_eq_some_iff] at h
  obtain ⟨f, hf, function, hfunction, body, hbody, o, ho, lone, hlone, h⟩ := h
  obtain ⟨only, honly⟩ := List.length_eq_one_iff.1 ((Option.guard_eq_some' _).1 hlone)
  obtain ⟨rfl, rfl, rfl⟩ : f = _ ∧ body = _ ∧ o = _ := by simpa using h
  rw [honly, List.head?_cons, Option.some.injEq] at ho
  exact ⟨hf, ⟨function, List.mem_of_head? hfunction, hbody⟩, by rw [honly, ho]⟩

/-- A file with a loop over one text twice, with a comment between, and a sub-test in it that has one below it. -/
def twiceFile : String :=
  "func TestX() \x7b for _, v := range []string\x7b`a`, /* again */ `a`\x7d \x7b" ++
    "t.Run(`case ` + v + `!`, func() \x7b t.Run(v, func() \x7b\x7d) \x7d) \x7d \x7d"

/-- A loop over one text twice. -/
theorem units_of_inLoop_twiceFile :
    ∃ f body o name left x right units, Source.parse? (Bytes.ofString twiceFile) = some f ∧
      (∃ function ∈ f.functions, function.child? .body = some body) ∧ (f.scope {}).registrations body = [o] ∧
      o.InLoop f.content "v" ["a", "a"] ∧ o.node.nameArgument? = some name ∧ name.addends = [left, x, right] ∧
      left.isString ∧ right.isString ∧ x.kind = .identifier ∧ x.text f.content = "v" ∧
      subtests (f.scope {}) body "TestX" [] = units ∧
      units.map (·.machineName) = ["TestX/case_a!", "TestX/case_a!"] ∧
      ∀ u ∈ units, ∀ u' ∈ units, u.subtests.map (TestUnit.relocated u.machineName "") =
        u'.subtests.map (TestUnit.relocated u'.machineName "") := by
  -- The loop is the second step down from the body of the function, which begins with the body itself.
  have found : ∃ r ∈ Source.loneRegistration? twiceFile,
      (∃ d ∈ r.2.2.path[1]?, d.node.GoesThrough r.1.content "v" ["a", "a"] ∧
        ∀ between ∈ r.2.2.path.drop 2, ∀ b ∈ between.node.rangeBinding? r.1.content, b.name ≠ "v") ∧
      ∃ name ∈ r.2.2.node.nameArgument?,
        (name.addends.map fun n => (n.kind, n.text r.1.content, n.literalText r.1.content)) =
          [(.rawString, "`case `", "case "), (.identifier, "v", "v"), (.rawString, "`!`", "!")] := by
    decide +kernel
  obtain ⟨⟨f, body, o⟩, hlone, ⟨d, hd, hloop, hinner⟩, name, hname, haddends⟩ := found
  obtain ⟨hf, hbody, ho⟩ := Source.of_loneRegistration? hlone
  simp only [List.map_eq_cons_iff, List.map_eq_nil_iff, Prod.mk.injEq] at haddends
  obtain ⟨left, _, haddends, ⟨hleft, -, before⟩, x, _, rfl, ⟨hx, hv, -⟩, right, _, rfl, ⟨hright, -, after⟩, rfl⟩ :=
    haddends
  have inLoop : o.InLoop f.content "v" ["a", "a"] := .of_getElem? hd hloop hinner
  have strings : left.isString ∧ right.isString := by simp [Node.isString, hleft, hright]
  obtain ⟨units, hunits, hnames, -, hbelow⟩ := units_of_inLoop "TestX" []
    (by rw [ho]; rfl : (f.scope {}).registrations body = [] ++ o :: []) inLoop (by decide) hname
    (by rw [haddends]; rfl : name.addends = [left] ++ x :: [right]) (by simpa using strings.1)
    (by simpa using strings.2) hx hv
  refine ⟨f, body, o, name, left, x, right, units, hf, hbody, ho, inLoop, hname, haddends, strings.1, strings.2, hx, hv,
    by simpa using hunits, ?_, fun u hu u' hu' => hbelow u hu u' hu' ""⟩
  have same : (f.scope {}).content = f.content := rfl
  simp only [List.map_cons, List.map_nil, same, before, after] at hnames
  rcases hnames with _ | ⟨⟨first, hfirst, -⟩, _ | ⟨⟨second, hsecond, -⟩, _ | _⟩⟩
  rw [List.map_cons, List.map_cons, List.map_nil, hfirst, hsecond, first, second]
  decide

end SuiteReport.Go
