import Mathlib.Data.List.Nodup
import SuiteReport.Proofs.Markup.Item
import SuiteReport.Proofs.Text.Trim
/-!
# Documents that are written

A document is written from a tree of elements: the values of attributes and the texts with the five predefined
references in place of their characters, and an element either with a start tag and an end tag or, if nothing stands in
it, with an empty-element tag. Reading such a document gives the tree back. Nothing of a value is lost; of a text, white
space at its ends is.

The reader is proved right one piece at a time, with anything behind the piece. Only a text needs to know what follows
it: it goes on to the next `<`.

## Main definitions

* `escape`: a text as it is written.
* `Head`, `Node`, `Content`: the name of an element and its attributes, a piece of a document, and what stands between
  two tags.
* `Node.write`, `Node.item`: a piece as it is written, and the item that it is read as.

## Main results

* `expand?_escape`: references are undone.
* `Attribute.find?_attributesText`: the attributes of a tag that is written can be read.
* `Node.ofDocument?_write`: a document that is written is read as the item that it was written from.
-/

namespace SuiteReport.Markup

/-! ### Characters -/

/-- What is written for a character of a text or of the value of an attribute. -/
def escapeChar : Char → List Char
  | '<' => ['&', 'l', 't', ';']
  | '>' => ['&', 'g', 't', ';']
  | '&' => ['&', 'a', 'm', 'p', ';']
  | '\x27' => ['&', 'a', 'p', 'o', 's', ';']
  | '"' => ['&', 'q', 'u', 'o', 't', ';']
  | c => [c]

/-- A text or a value as it is written. -/
def escape (s : List Char) : List Char := s.flatMap escapeChar

/-- Whether the character is neither a quote nor an angle bracket. -/
def isInert (c : Char) : Bool := c != '<' && c != '>' && c != '"' && c != '\x27'

/-- A reference is expanded to the character that it refers to. -/
theorem expand?_reference {s name rest : List Char} {c : Char} (href : reference? s = some (name, rest))
    (hc : referent? name = some c) : expand? ('&' :: s) = (expand? rest).map (c :: ·) := by
  rw [expand?]
  split
  · rename_i hnone
    rw [href] at hnone
    cases hnone
  · rename_i hsome
    rw [href] at hsome
    cases hsome
    rw [hc]
    cases expand? rest <;> rfl

/-- What is written for a character is expanded to it, whatever follows. -/
theorem expand?_escapeChar (c : Char) (rest : List Char) :
    expand? (escapeChar c ++ rest) = (expand? rest).map (c :: ·) := by
  fun_cases escapeChar c with
  | case6 c _ _ hand => rw [List.singleton_append, expand?]; exact hand
  | _ => exact expand?_reference rfl (by decide)

theorem expand?_escape (s : List Char) : expand? (escape s) = some s := by
  induction s with
  | nil => rw [escape, List.flatMap_nil, expand?]
  | cons c s ih => rw [escape, List.flatMap_cons, expand?_escapeChar, ← escape, ih, Option.map_some]

theorem all_isInert_escapeChar (c : Char) : (escapeChar c).all isInert = true := by
  fun_cases escapeChar c with
  | case6 c hlt hgt _ hapos hquot => simpa [isInert, and_assoc] using ⟨hlt, hgt, hquot, hapos⟩
  | _ => decide

theorem isInert_of_mem_escape {s : List Char} {d : Char} (h : d ∈ escape s) : isInert d = true := by
  obtain ⟨c, -, h⟩ := List.mem_flatMap.1 h
  exact List.all_eq_true.1 (all_isInert_escapeChar c) d h

theorem escapeChar_ne_nil (c : Char) : escapeChar c ≠ [] := by
  fun_cases escapeChar c <;> simp

/-- White space is written as it is, and nothing else is written with white space. -/
theorem trim_escape (s : List Char) : trim isSpace (escape s) = escape (trim isSpace s) := by
  refine trim_flatMap ?_ ?_ s
  · intro c hc
    fun_cases escapeChar c with
    | case6 => rfl
    | _ => simp [isSpace] at hc
  · intro c hc
    fun_cases escapeChar c with
    | case6 => simpa using hc
    | _ => simp [isSpace]

/-! ### Tags -/

/-- The name of an element or of an attribute: some letters. -/
structure Name where
  /-- The name as a text. -/
  text : String
  /-- There is a letter. -/
  ne_nil : text.toList ≠ []
  /-- There is nothing else. -/
  isAlpha : text.toList.all Char.isAlpha = true

/-- The name of an element with its attributes, whose values are as they are meant. -/
structure Head where
  /-- The name of the element. -/
  name : Name
  /-- The attributes in the order in which they are written. -/
  attributes : List (Name × String)
  /-- No attribute occurs twice. -/
  nodup : (attributes.map (·.1.text)).Nodup

/-- An attribute as it is written, with a blank before it. -/
def attributeText (a : Name × String) : List Char :=
  ' ' :: (a.1.text.toList ++ '=' :: '"' :: (escape a.2.toList ++ ['"']))

namespace Head

/-- The value of an attribute, if there is one of this name. -/
def attribute? (head : Head) (name : String) : Option String :=
  (head.attributes.find? (·.1.text == name)).map Prod.snd

/-- The attributes as they are written. -/
def attributesText (head : Head) : List Char := head.attributes.flatMap attributeText

/-- The name and the attributes as they are written. -/
def text (head : Head) : List Char := head.name.text.toList ++ head.attributesText

/-- The tag that the head is read as. -/
def tag (head : Head) : Tag := ⟨head.name.text.toList, head.attributesText⟩

end Head

theorem Name.isAlpha_of_mem {name : Name} {c : Char} (hc : c ∈ name.text.toList) : c.isAlpha = true :=
  List.all_eq_true.1 name.isAlpha c hc

theorem Name.ne_of_mem {name : Name} {c d : Char} (hc : c ∈ name.text.toList) (hd : d.isAlpha = false) : c ≠ d := by
  rintro rfl
  rw [name.isAlpha_of_mem hc] at hd
  cases hd

theorem Name.not_isSpace {name : Name} {c : Char} (hc : c ∈ name.text.toList) : isSpace c = false := by
  simp [isSpace, name.ne_of_mem hc]

theorem Name.not_endsName {name : Name} {c : Char} (hc : c ∈ name.text.toList) : Attribute.endsName c = false := by
  simp [Attribute.endsName, name.ne_of_mem hc, name.not_isSpace hc]

theorem Name.isInert {name : Name} {c : Char} (hc : c ∈ name.text.toList) : isInert c = true := by
  simp [Markup.isInert, name.ne_of_mem hc]

/-- The attributes of a head have distinct names, so each is found. -/
theorem Head.attribute?_of_mem {head : Head} {key : Name} {value : String} (h : (key, value) ∈ head.attributes) :
    head.attribute? key.text = some value := by
  rw [attribute?]
  cases hfind : head.attributes.find? (·.1.text == key.text) with
  | none => simpa using List.find?_eq_none.1 hfind (key, value) h
  | some a =>
      have hname : a.1.text = key.text := by simpa using List.find?_some hfind
      obtain rfl := List.inj_on_of_nodup_map head.nodup (List.mem_of_find?_eq_some hfind) h hname
      rfl

theorem Head.attribute?_eq_none {head : Head} {name : String} (h : ∀ a ∈ head.attributes, a.1.text ≠ name) :
    head.attribute? name = none := by
  rw [attribute?, List.find?_eq_none.2 fun a ha => by simpa using h a ha]
  rfl

/-- The name of an element has no part before a colon. -/
theorem Head.localName_tag (head : Head) : head.tag.localName = head.name.text := by
  have hcolon : ':' ∉ head.name.text.toList := fun h => head.name.ne_of_mem h rfl rfl
  rw [Tag.localName, Head.tag, localPart, List.contains_eq_mem, decide_eq_false hcolon, if_neg Bool.false_ne_true,
    String.ofList_toList]

/-! ### Reading attributes -/

namespace Attribute

theorem untilQuote?_append {quote : Char} {value : List Char} (h : quote ∉ value) (rest : List Char) :
    untilQuote? quote (value ++ quote :: rest) = some (value, rest) := by
  induction value with
  | nil => simp [untilQuote?]
  | cons c value ih =>
      have hc : c ≠ quote := fun hc => h (hc ▸ List.mem_cons_self)
      rw [List.cons_append, untilQuote?, if_neg hc, ih fun hmem => h (List.mem_cons_of_mem c hmem), Option.map_some]

/-- A value that is written is read up to its quote. -/
theorem value?_escape (value rest : List Char) :
    value? ('"' :: (escape value ++ '"' :: rest)) = .ok (escape value, rest) := by
  have hquote : '"' ∉ escape value := fun h => absurd (isInert_of_mem_escape h) (by decide)
  have hstart (s : List Char) : ('"' :: s).dropWhile isSpace = '"' :: s := List.dropWhile_cons_of_neg (by decide)
  rw [value?, hstart]
  simp only [untilQuote?_append hquote, Option.elim_some]

/-- The first of several attributes that are written is read. -/
theorem next?_attributeText {seen : List (List Char)} {a : Name × String} (h : a.1.text.toList ∉ seen)
    (rest : List Char) :
    next? seen (attributeText a ++ rest) = .ok (some (⟨a.1.text.toList, escape a.2.toList⟩, rest)) := by
  obtain ⟨name, value⟩ := a
  obtain ⟨c, letters, hname⟩ := List.exists_cons_of_ne_nil name.ne_nil
  have hc : c ∈ name.text.toList := hname ▸ List.mem_cons_self
  have hkeep : ∀ d ∈ letters, (! endsName d) = true := fun d hd => by
    simp [name.not_endsName (hname ▸ List.mem_cons_of_mem c hd)]
  let later := '"' :: (escape value.toList ++ '"' :: rest)
  have htext : attributeText (name, value) ++ rest = ' ' :: c :: (letters ++ '=' :: later) := by
    simp [attributeText, hname, later]
  have hstart : (attributeText (name, value) ++ rest).dropWhile isSpace = c :: (letters ++ '=' :: later) := by
    rw [htext, List.dropWhile_cons_of_pos rfl, List.dropWhile_cons_of_neg (by simp [name.not_isSpace hc])]
  have htake : (letters ++ '=' :: later).takeWhile (! endsName ·) = letters := by
    rw [List.takeWhile_append_of_pos hkeep, List.takeWhile_cons_of_neg (by decide), List.append_nil]
  have hdrop : ((letters ++ '=' :: later).dropWhile (! endsName ·)).dropWhile isSpace = '=' :: later := by
    rw [List.dropWhile_append_of_pos hkeep, List.dropWhile_cons_of_neg (by decide),
      List.dropWhile_cons_of_neg (by decide)]
  have hne : c ≠ '=' := name.ne_of_mem hc (by decide)
  have hseen : ¬ seen.contains name.text.toList = true := by simpa using h
  rw [next?, hstart]
  simp only [htake, hdrop, if_neg hne, ← hname, if_neg hseen, later, value?_escape]

/-- Attributes are looked at one after the other. -/
theorem findRaw?_of_next? {name s rest : List Char} {seen : List (List Char)} {a : Attribute}
    (h : next? seen s = .ok (some (a, rest))) :
    findRaw? name seen s = if a.name = name then .ok (some a.value) else findRaw? name (a.name :: seen) rest := by
  rw [findRaw?]
  split <;> rename_i hnext <;> rw [h] at hnext <;> cases hnext
  rfl

/-- Of several attributes with distinct names, the one with the given name is found. -/
theorem findRaw?_flatMap (name : String) {seen : List (List Char)} {attributes : List (Name × String)}
    (nodup : (attributes.map (·.1.text)).Nodup) (unseen : ∀ a ∈ attributes, a.1.text.toList ∉ seen) :
    findRaw? name.toList seen (attributes.flatMap attributeText) =
      .ok ((attributes.find? (·.1.text == name)).map fun a => escape a.2.toList) := by
  induction attributes generalizing seen with
  | nil => simp [findRaw?, next?]
  | cons a attributes ih =>
      obtain ⟨hself, nodup⟩ := List.nodup_cons.1 nodup
      obtain ⟨ha, unseen⟩ := List.forall_mem_cons.1 unseen
      have hlater : ∀ b ∈ attributes, b.1.text.toList ∉ a.1.text.toList :: seen := by
        intro b hb hmem
        rcases List.mem_cons.1 hmem with hsame | hmem
        · exact hself (List.mem_map.2 ⟨b, hb, String.toList_injective hsame⟩)
        · exact unseen b hb hmem
      rw [List.flatMap_cons, findRaw?_of_next? (next?_attributeText ha _), ih nodup hlater]
      by_cases hname : a.1.text = name
      · simp [hname]
      · have hlist : a.1.text.toList ≠ name.toList := fun h => hname (String.toList_injective h)
        simp [hname, hlist]

/-- **Attributes can be read**: asking for an attribute of a tag that is written gives its value. -/
theorem find?_attributesText (head : Head) (name : String) :
    find? head.attributesText name = .ok (head.attribute? name) := by
  rw [find?, Head.attributesText, findRaw?_flatMap name head.nodup (by simp), Head.attribute?]
  cases head.attributes.find? (·.1.text == name) with
  | none => rfl
  | some a => simp [expand?_escape, bind, Except.bind, pure, Except.pure]

end Attribute

/-! ### Pieces of documents -/

mutual

/-- A piece of a document that is markup. -/
inductive Node where
  /-- An element with a start tag and an end tag. -/
  | element (head : Head) (content : Content)
  /-- An element with an empty-element tag. -/
  | empty (head : Head)
  /-- A comment without content. -/
  | comment

/-- What stands between two tags: texts with markup between them. -/
inductive Content where
  /-- The last text. -/
  | last (text : String)
  /-- A text, the markup behind it, and what follows. -/
  | next (text : String) (node : Node) (later : Content)

end

mutual

/-- The markup as it is written. -/
def Node.write : Node → List Char
  | .element head content =>
    '<' :: (head.text ++ '>' :: (content.write ++ '<' :: '/' :: (head.name.text.toList ++ ['>'])))
  | .empty head => '<' :: (head.text ++ ['/', '>'])
  | .comment => ['<', '!', '-', '-', '-', '-', '>']

/-- The content as it is written. -/
def Content.write : Content → List Char
  | .last text => escape text.toList
  | .next text node later => escape text.toList ++ (node.write ++ later.write)

end

/-- The items that a text is read as: one without the white space at its ends, if something is left. -/
def textItems (text : String) : List Item :=
  match trim isSpace text.toList with
  | [] => []
  | c :: s => [.text (escape (c :: s))]

mutual

/-- The item that the markup is read as. -/
def Node.item : Node → Item
  | .element head content => .element head.tag content.items
  | .empty head => .empty head.tag
  | .comment => .other

/-- The items that the content is read as. -/
def Content.items : Content → List Item
  | .last text => textItems text
  | .next text node later => textItems text ++ node.item :: later.items

end

/-! ### Reading tags -/

namespace Event

/-- The content of a tag ends at the `>` behind it if it holds none and each of its quotes is closed. -/
theorem cutTag?_append {content : List Char} (hgt : '>' ∉ content) {quote : Option Char}
    (hquote : content.foldl quoteAfter quote = none) (rest : List Char) :
    cutTag? quote (content ++ '>' :: rest) = some (content, rest) := by
  induction content generalizing quote with
  | nil =>
      have hquote : quote = none := hquote
      simp [cutTag?, hquote]
  | cons c content ih =>
      have hc : c ≠ '>' := fun hc => hgt (hc ▸ List.mem_cons_self)
      rw [List.cons_append, cutTag?, if_neg fun h => hc h.2, ih (fun h => hgt (List.mem_cons_of_mem c h)) hquote,
        Option.map_some]

/-- Characters that are no quotes neither open nor close one. -/
theorem foldl_quoteAfter {s : List Char} (h : ∀ c ∈ s, isInert c = true) {quote : Option Char}
    (hquote : ∀ q ∈ quote, isInert q = false) : s.foldl quoteAfter quote = quote := by
  induction s with
  | nil => rfl
  | cons c s ih =>
      obtain ⟨hc, hs⟩ := List.forall_mem_cons.1 h
      have hstep : quoteAfter quote c = quote := by
        cases quote with
        | none =>
            simp only [isInert, Bool.and_eq_true, bne_iff_ne] at hc
            simp [quoteAfter, hc]
        | some q =>
            have hne : c ≠ q := fun h => by simp [h, hquote q rfl] at hc
            simp [quoteAfter, hne]
      rw [List.foldl_cons, hstep, ih hs]

/-- Every quote in a tag that is written is closed. -/
theorem foldl_quoteAfter_text (head : Head) : head.text.foldl quoteAfter none = none := by
  have hname (name : Name) : name.text.toList.foldl quoteAfter none = none :=
    foldl_quoteAfter (fun c hc => name.isInert hc) (by simp)
  have hattribute (a : Name × String) : (attributeText a).foldl quoteAfter none = none := by
    have hvalue : (escape a.2.toList).foldl quoteAfter (some '"') = some '"' :=
      foldl_quoteAfter (fun c hc => isInert_of_mem_escape hc) (by simp [isInert])
    have hblank : quoteAfter none ' ' = none := by decide
    have hequals : quoteAfter none '=' = none := by decide
    have hopen : quoteAfter none '"' = some '"' := by decide
    have hclose : quoteAfter (some '"') '"' = none := by decide
    simp only [attributeText, List.foldl_cons, List.foldl_append, List.foldl_nil, hblank, hname, hequals, hopen,
      hvalue, hclose]
  rw [Head.text, List.foldl_append, hname, Head.attributesText]
  induction head.attributes with
  | nil => rfl
  | cons a attributes ih => rw [List.flatMap_cons, List.foldl_append, hattribute, ih]

/-- No tag that is written holds a `>`. -/
theorem not_mem_text (head : Head) : '>' ∉ head.text := by
  have hname (name : Name) : '>' ∉ name.text.toList := fun h => name.ne_of_mem h rfl rfl
  have hescape (s : List Char) : '>' ∉ escape s := fun h => absurd (isInert_of_mem_escape h) (by decide)
  simp [Head.text, Head.attributesText, attributeText, hname, hescape]

/-- A tag that is written ends with a letter or a quote. -/
theorem getLast?_text (head : Head) : head.text.getLast? ≠ some '/' := by
  rw [Head.text, Head.attributesText]
  rcases List.eq_nil_or_concat' head.attributes with hnil | ⟨attributes, a, hlast⟩
  · intro h
    rw [hnil, List.flatMap_nil, List.append_nil] at h
    exact head.name.ne_of_mem (List.mem_of_getLast? h) rfl rfl
  · have hquote : attributeText a = (' ' :: (a.1.text.toList ++ '=' :: '"' :: escape a.2.toList)) ++ ['"'] := by
      simp [attributeText]
    rw [hlast, List.flatMap_append, List.flatMap_singleton, hquote, ← List.append_assoc, ← List.append_assoc,
      List.getLast?_concat]
    decide

/-- The name of a tag ends at the first blank. -/
theorem ofContent_text (head : Head) : Tag.ofContent head.text = head.tag := by
  have hkeep : ∀ c ∈ head.name.text.toList, (! isSpace c) = true := fun c hc => by simp [head.name.not_isSpace hc]
  have hattributes : head.attributesText = [] ∨ ∃ later, head.attributesText = ' ' :: later := by
    rw [Head.attributesText]
    cases head.attributes with
    | nil => exact .inl rfl
    | cons a attributes => exact .inr ⟨_, rfl⟩
  have hend : head.attributesText.takeWhile (! isSpace ·) = [] ∧
      head.attributesText.dropWhile (! isSpace ·) = head.attributesText := by
    rcases hattributes with h | ⟨later, h⟩ <;> rw [h] <;> exact ⟨rfl, rfl⟩
  rw [Tag.ofContent, Head.text, List.takeWhile_append_of_pos hkeep, List.dropWhile_append_of_pos hkeep, hend.1, hend.2,
    List.append_nil, Head.tag]

/-- Markup that begins with a letter is a tag. -/
theorem markup?_of_cutTag? {c : Char} {s content rest : List Char} (hc : c.isAlpha = true)
    (hcut : cutTag? none (c :: s) = some (content, rest)) :
    markup? (c :: s) = some (if content.getLast? = some '/' then (.empty (Tag.ofContent content.dropLast), rest)
      else (.opened (Tag.ofContent content), rest)) := by
  rw [markup?, hcut, Option.map_some]
  · exact fun h => nomatch h
  all_goals rintro _ h; cases h; exact absurd hc (by decide)

/-- A tag is read up to its `>`, before which a mark may stand. -/
theorem cutTag?_text (head : Head) (mark : List Char) (hmark : ∀ c ∈ mark, isInert c = true) (rest : List Char) :
    cutTag? none (head.text ++ mark ++ '>' :: rest) = some (head.text ++ mark, rest) := by
  refine cutTag?_append ?_ ?_ rest
  · intro h
    rcases List.mem_append.1 h with h | h
    · exact not_mem_text head h
    · exact absurd (hmark _ h) (by decide)
  · rw [List.foldl_append, foldl_quoteAfter_text, foldl_quoteAfter hmark (by simp)]

/-- A tag begins with a letter. -/
theorem exists_text_eq_cons (head : Head) : ∃ c s, head.text = c :: s ∧ c.isAlpha = true := by
  obtain ⟨c, letters, hname⟩ := List.exists_cons_of_ne_nil head.name.ne_nil
  exact ⟨c, letters ++ head.attributesText, by rw [Head.text, hname, List.cons_append],
    head.name.isAlpha_of_mem (hname ▸ List.mem_cons_self)⟩

/-- A start tag is read. -/
theorem markup?_opened (head : Head) (rest : List Char) :
    markup? (head.text ++ '>' :: rest) = some (.opened head.tag, rest) := by
  obtain ⟨c, s, htext, hc⟩ := exists_text_eq_cons head
  have hcut := cutTag?_text head [] (by simp) rest
  rw [List.append_nil, htext, List.cons_append] at hcut
  rw [htext, List.cons_append, markup?_of_cutTag? hc hcut, ← htext, if_neg (getLast?_text head), ofContent_text]

/-- An empty-element tag is read. -/
theorem markup?_empty (head : Head) (rest : List Char) :
    markup? (head.text ++ '/' :: '>' :: rest) = some (.empty head.tag, rest) := by
  obtain ⟨c, s, htext, hc⟩ := exists_text_eq_cons head
  have hcut := cutTag?_text head ['/'] (by simp [isInert]) rest
  rw [htext, List.append_assoc, List.singleton_append, List.cons_append] at hcut
  rw [htext, List.cons_append, markup?_of_cutTag? hc hcut, ← htext, if_pos List.getLast?_concat,
    List.dropLast_concat, ofContent_text]

/-- An end tag is read. -/
theorem markup?_closed (name : Name) (rest : List Char) :
    markup? ('/' :: (name.text.toList ++ '>' :: rest)) = some (.closed name.text.toList, rest) := by
  have hgt : '>' ∉ name.text.toList := fun h => name.ne_of_mem h rfl rfl
  have hquote : name.text.toList.foldl quoteAfter none = none :=
    foldl_quoteAfter (fun c hc => name.isInert hc) (by simp)
  have hkeep : markup?.dropTrailing name.text.toList = name.text.toList := by
    rw [markup?.dropTrailing]
    split
    · rfl
    · exact trimEnd_eq_self fun c hc => name.not_isSpace (List.mem_of_getLast? hc)
  rw [markup?, cutTag?_append hgt hquote]
  simp only [Option.map_some, hkeep]

/-- A comment without content is read. -/
theorem markup?_comment (rest : List Char) :
    markup? ('!' :: '-' :: '-' :: '-' :: '-' :: '>' :: rest) = some (.other, rest) := rfl

/-! ### Reading documents -/

/-- Where a document begins with markup, the markup is read first. -/
theorem scan_cons (body : List Char) :
    scan ('<' :: body) = match markup? body with
      | none => ⟨[], some .brokenMarkup⟩
      | some (e, rest) => ⟨e :: (scan rest).events, (scan rest).fault⟩ := by
  rw [scan]
  split
  · rename_i hnil
    cases hnil
  · rename_i hcons
    cases hcons
    split <;> rename_i hmarkup <;> rw [hmarkup] <;> rfl

/-- What stands before the first markup is a text. -/
theorem scan_eq (s : List Char) :
    scan s = ⟨ofText (s.takeWhile (· != '<')) ++ (scan (s.dropWhile (· != '<'))).events,
      (scan (s.dropWhile (· != '<'))).fault⟩ := by
  rw [scan]
  split
  · rename_i hnil
    rw [hnil, scan]
    simp [ofText]
  · rename_i c body hcons
    obtain rfl : c = '<' := by
      have hstop := List.head?_dropWhile_not (· != '<') s
      simpa [hcons] using hstop
    rw [hcons, scan_cons]
    split <;> rename_i hmarkup <;> rw [hmarkup]
    rw [List.append_nil]

/-- A text goes on to the markup behind it or to the end of the document. -/
theorem scan_text {s rest : List Char} (hs : '<' ∉ s) (hrest : ∀ c ∈ rest.head?, c = '<') :
    scan (s ++ rest) = ⟨ofText s ++ (scan rest).events, (scan rest).fault⟩ := by
  have hkeep : ∀ c ∈ s, (c != '<') = true := fun c hc => by simpa using fun h : c = '<' => hs (h ▸ hc)
  have htake : rest.takeWhile (· != '<') = [] ∧ rest.dropWhile (· != '<') = rest := by
    cases rest with
    | nil => exact ⟨rfl, rfl⟩
    | cons c rest =>
        obtain rfl : c = '<' := hrest c rfl
        exact ⟨rfl, rfl⟩
  rw [scan_eq, List.takeWhile_append_of_pos hkeep, List.dropWhile_append_of_pos hkeep, htake.1, htake.2,
    List.append_nil]

/-- The event of a text is what trimming leaves of it. -/
theorem ofText_eq (s : List Char) : ofText s = if trim isSpace s = [] then [] else [.text (trim isSpace s)] := by
  have htrim : ((s.dropWhile isSpace).reverse.dropWhile isSpace).reverse = trim isSpace s := rfl
  rw [ofText, htrim]
  cases trim isSpace s <;> rfl

/-- A text that is written is read without the white space at its ends. -/
theorem ofText_escape (text : String) : ofText (escape text.toList) = Item.eventsOf (textItems text) := by
  rw [ofText_eq, trim_escape, textItems]
  cases trim isSpace text.toList with
  | nil => rfl
  | cons c s =>
      obtain ⟨d, t, hwrite⟩ := List.exists_cons_of_ne_nil (escapeChar_ne_nil c)
      have hcons : escape (c :: s) = d :: (t ++ escape s) := by
        rw [escape, List.flatMap_cons, hwrite, List.cons_append, escape]
      simp only [hcons]
      rfl

/-- Behind a text that is written, what follows is read as it would be by itself. -/
theorem scan_escape (text : String) {rest : List Char} (hrest : ∀ c ∈ rest.head?, c = '<') :
    scan (escape text.toList ++ rest) =
      ⟨Item.eventsOf (textItems text) ++ (scan rest).events, (scan rest).fault⟩ := by
  have hlt : '<' ∉ escape text.toList := fun h => absurd (isInert_of_mem_escape h) (by decide)
  rw [scan_text hlt hrest, ofText_escape]

mutual

/-- Behind markup that is written, what follows is read as it would be by itself. -/
theorem scan_write (rest : List Char) : ∀ node : Node,
    scan (node.write ++ rest) = ⟨node.item.events ++ (scan rest).events, (scan rest).fault⟩
  | .element head content => by
      -- the content is read with the end tag behind it
      have hend := scan_cons ('/' :: (head.name.text.toList ++ '>' :: rest))
      rw [markup?_closed] at hend
      have hcontent := scan_writeContent ('<' :: '/' :: (head.name.text.toList ++ '>' :: rest)) (by simp) content
      rw [hend] at hcontent
      simp only [Node.write, List.cons_append, List.append_assoc, List.nil_append]
      rw [scan_cons, markup?_opened]
      simp only [hcontent]
      simp [Node.item, Item.events, Head.tag]
  | .empty head => by
      simp only [Node.write, List.cons_append, List.append_assoc, List.nil_append]
      rw [scan_cons, markup?_empty]
      rfl
  | .comment => by
      have hcomment := scan_cons ('!' :: '-' :: '-' :: '-' :: '-' :: '>' :: rest)
      rw [markup?_comment] at hcomment
      exact hcomment

/-- Behind content that is written, markup is read as it would be by itself. -/
theorem scan_writeContent (rest : List Char) (hrest : ∀ c ∈ rest.head?, c = '<') : ∀ content : Content,
    scan (content.write ++ rest) = ⟨Item.eventsOf content.items ++ (scan rest).events, (scan rest).fault⟩
  | .last last => scan_escape last hrest
  | .next first node later => by
      have hnode : ∀ c ∈ (node.write ++ (later.write ++ rest)).head?, c = '<' := by
        cases node <;> simp [Node.write]
      rw [Content.write, List.append_assoc, List.append_assoc, scan_escape first hnode, scan_write,
        scan_writeContent rest hrest later, Content.items, Item.eventsOf_append, Item.eventsOf]
      simp only [List.append_assoc]

end

end Event

/-- **A document that is written is read as the item that it was written from.** -/
theorem Node.ofDocument?_write (node : Node) : Item.ofDocument? (String.ofList node.write) = some [node.item] := by
  obtain ⟨s, hs⟩ : ∃ s, node.write = '<' :: s := by
    cases node <;> exact ⟨_, rfl⟩
  have hend : Event.scan [] = ⟨[], none⟩ := by
    rw [Event.scan]
    rfl
  have hscan := Event.scan_write [] node
  rw [List.append_nil, hend, List.append_nil, hs] at hscan
  have hnest := Item.nest_events [] [] node.item
  rw [List.append_nil] at hnest
  have hstart : ¬ '<' = byteOrderMark := by decide
  rw [Item.ofDocument?_eq_some_iff, Item.eventsOf, Item.eventsOf, List.append_nil, Reading.ofString,
    String.toList_ofList, hs]
  simp only [if_neg hstart, hscan, hnest]
  simp [Event.nest]

/-! ### Elements without content -/

/-- An element with an empty-element tag if that is chosen and nothing is written in the element, else with a start tag
and an end tag. -/
def Node.elementOrEmpty (head : Head) (content : Content) (selfClosing : Bool) : Node :=
  if selfClosing ∧ content.write = [] then .empty head else .element head content

/-- Where nothing is written, nothing is read. -/
theorem Content.items_eq_nil {content : Content} (h : content.write = []) : content.items = [] := by
  cases content with
  | last text =>
      rw [Content.write, escape, List.flatMap_eq_nil_iff] at h
      have htext : text.toList = [] := List.eq_nil_iff_forall_not_mem.2 fun c hc => escapeChar_ne_nil c (h c hc)
      rw [Content.items, textItems, htext]
      rfl
  | next text node later =>
      rw [Content.write, List.append_eq_nil_iff, List.append_eq_nil_iff] at h
      cases node <;> exact absurd h.2.1 (List.cons_ne_nil _ _)

section Choice

variable (head : Head) (content : Content) (selfClosing : Bool)

theorem Node.tag?_elementOrEmpty : (elementOrEmpty head content selfClosing).item.tag? = some head.tag := by
  rw [elementOrEmpty]
  split <;> rfl

theorem Node.content_elementOrEmpty : (elementOrEmpty head content selfClosing).item.content = content.items := by
  rw [elementOrEmpty]
  split
  · rename_i h
    rw [Content.items_eq_nil h.2]
    rfl
  · rfl

/-- Either way the same items stand in the element. -/
theorem Node.placedInside_elementOrEmpty (around : List Tag) :
    Item.placedInside around (elementOrEmpty head content selfClosing).item =
      Item.placedIn (head.tag :: around) content.items := by
  rw [Item.placedInside_eq (tag?_elementOrEmpty head content selfClosing), content_elementOrEmpty]

end Choice

end SuiteReport.Markup
