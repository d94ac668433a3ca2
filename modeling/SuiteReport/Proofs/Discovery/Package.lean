import Mathlib.Logic.Relation
import SuiteReport.Go.Module
import SuiteReport.Proofs.Files.Path
/-!
# Identifiers of packages

The identifier of a package is the path of its module and the way from the directory of the module to the one of the
package, part by part, without the ending of external tests. So it does not matter how the path of the directory is
spelled, and two directories of a module have the same identifier only because of the ending: the parts of a path can
be told from the text that they are joined to.

## Main definitions

* `Path.Respelled`: a change to the spelling of a path.
* `Path.InPath`: the parts of a path from some point on.
* `GoModule.identifier`: the identifier of a package before the ending is dropped.
* `GoModule.DropsEnding`: what it is to drop the ending.

## Main results

* `Path.parts_of_respelled`: spelling does not matter for the parts of a path.
* `Path.parts_joined`: the parts can be told from the text that they are joined to.
* `GoModule.packageOf_by_parts`: what identifiers of packages are, and when two of them are equal.
-/

namespace SuiteReport

namespace Path

/-! ### Spelling -/

/-- **One change to the spelling of a path**: a slash is repeated or put behind the path, or a dot is put behind a
slash or, with a slash, behind the path. Nothing is put behind the empty path, which would become that of the root
directory. -/
inductive Respelled : String → String → Prop where
  /-- A slash is repeated. -/
  | slashAgain (s later : String) : Respelled (s ++ "/" ++ later) (s ++ "//" ++ later)
  /-- A slash is put at the end. -/
  | slashBehind (s : String) (h : s ≠ "") : Respelled s (s ++ "/")
  /-- A dot is put behind a slash. -/
  | dotBetween (s later : String) : Respelled (s ++ "/" ++ later) (s ++ "/./" ++ later)
  /-- A dot is put at the end. -/
  | dotBehind (s : String) (h : s ≠ "") : Respelled s (s ++ "/.")

/-- The segments of a text with a slash in it are those on both sides. -/
theorem segments_append_slash (s later : String) : segments (s ++ "/" ++ later) = segments s ++ segments later := by
  have slash : "/".toList = [separator] := rfl
  rw [segments, String.toList_append, String.toList_append, slash, List.append_assoc, List.singleton_append,
    splitOn_append_cons, List.map_append, segments, segments]

/-- A text has a first segment. -/
theorem exists_segments_eq_cons (s : String) : ∃ first later, segments s = first :: later := by
  cases h : segments s with
  | nil =>
      have := length_splitOn separator s.toList
      rw [List.map_eq_nil_iff.1 h] at this
      cases this
  | cons first later => exact ⟨first, later, rfl⟩

/-- A path that goes on behind a slash is as absolute as it is up to the slash. -/
theorem isAbsolute_append_slash (s later : String) : isAbsolute (s ++ "/" ++ later) = isAbsolute (s ++ "/") := by
  have slash : (s ++ "/").toList ≠ [] := by simp
  rw [isAbsolute, isAbsolute, String.toList_append, List.head?_append_of_ne_nil _ slash]

/-- A slash at the end does not make a path absolute that is not empty. -/
theorem isAbsolute_slash_behind {s : String} (h : s ≠ "") : isAbsolute (s ++ "/") = isAbsolute s := by
  have text : s.toList ≠ [] := fun hs => h (String.toList_eq_nil_iff.1 hs)
  rw [isAbsolute, isAbsolute, String.toList_append, List.head?_append_of_ne_nil _ text]

/-- A slash at the end of a path adds an empty segment. -/
theorem segments_slash_behind (s : String) : segments (s ++ "/") = segments s ++ [""] := by
  rw [← String.append_empty (s := s ++ "/"), segments_append_slash]
  rfl

/-- What stands behind a slash in a path adds its own parts. -/
theorem parts_append_slash (s later : String) :
    parts (s ++ "/" ++ later) = parts (s ++ "/") ++ (segments later).filterMap laterPart? := by
  obtain ⟨first, between, hs⟩ := exists_segments_eq_cons s
  have nothing : [""].filterMap laterPart? = [] := rfl
  rw [parts, parts, segments_append_slash, segments_slash_behind, isAbsolute_append_slash, hs]
  simp only [List.cons_append, List.filterMap_append, nothing, List.append_nil, List.append_assoc]

/-- A slash at the end of a path that is not empty adds no part. -/
theorem parts_slash_behind {s : String} (h : s ≠ "") : parts (s ++ "/") = parts s := by
  obtain ⟨first, between, hs⟩ := exists_segments_eq_cons s
  have nothing : [""].filterMap laterPart? = [] := rfl
  rw [parts, parts, segments_slash_behind, isAbsolute_slash_behind h, hs]
  simp only [List.cons_append, List.filterMap_append, nothing, List.append_nil]

/-- An empty segment or a dot behind a slash adds no part. -/
theorem parts_passed_over {segment : String} (h : separator ∉ segment.toList) (hnone : laterPart? segment = none)
    (s later : String) : parts (s ++ "/" ++ (segment ++ "/" ++ later)) = parts (s ++ "/" ++ later) := by
  have alone : segments segment = [segment] := by
    rw [segments, splitOn_eq_singleton h, List.map_singleton, String.ofList_toList]
  rw [parts_append_slash, parts_append_slash s later, segments_append_slash, alone, List.singleton_append,
    List.filterMap_cons_none hnone]

/-- **Spelling does not matter** for the parts of a path. -/
theorem parts_of_respelled {s t : String} (h : Respelled s t) : parts t = parts s := by
  have noSlash : separator ∉ "".toList ∧ separator ∉ ".".toList := by decide
  cases h with
  | slashAgain s later =>
      have cut : s ++ "//" ++ later = s ++ "/" ++ ("" ++ "/" ++ later) := by simp [← String.toList_inj]
      rw [cut, parts_passed_over noSlash.1 rfl]
  | slashBehind s h => exact parts_slash_behind h
  | dotBetween s later =>
      have cut : s ++ "/./" ++ later = s ++ "/" ++ ("." ++ "/" ++ later) := by simp [← String.toList_inj]
      rw [cut, parts_passed_over noSlash.2 rfl]
  | dotBehind s h =>
      have cut : s ++ "/." = s ++ "/" ++ "." := by simp [← String.toList_inj]
      rw [cut, parts_append_slash, parts_slash_behind h]
      exact List.append_nil _

/-! ### Telling the parts of a path -/

/-- Whether a part can stand anywhere in a path. -/
def Part.IsLater : Part → Prop
  | .up => True
  | .name s => IsName s
  | .root | .here => False

/-- **The parts of a path from some point on**: the root directory and the directory that the path starts from only
come first. -/
structure InPath (rest : List Part) : Prop where
  /-- A first part that can only come first is one of the two. -/
  first : ∀ part ∈ rest.head?, part.IsLater ∨ part = .root ∨ part = .here
  /-- All other parts can stand anywhere. -/
  later : ∀ part ∈ rest.tail, part.IsLater

/-- A segment stands for a part that can stand anywhere and is written like it. -/
theorem of_laterPart? {segment : String} {part : Part} (hslash : separator ∉ segment.toList)
    (h : laterPart? segment = some part) : part.IsLater := by
  rw [laterPart?] at h
  split at h
  next => cases h
  next hname =>
      split at h
      next => exact Option.some.inj h ▸ trivial
      next hup =>
          rw [← Option.some.inj h]
          exact ⟨fun he => hname (.inl he), hslash, fun he => hname (.inr he), hup⟩

/-- There is no slash in a segment. -/
theorem separator_notMem_of_mem_segments {path segment : String} (h : segment ∈ segments path) :
    separator ∉ segment.toList := by
  obtain ⟨chars, hchars, rfl⟩ := List.mem_map.1 h
  rw [String.toList_ofList]
  exact notMem_of_mem_splitOn hchars

/-- Parts that can stand anywhere are parts of a path from some point on, behind a first part if there is one. -/
theorem inPath_append {beginning : Option Part} {later : List Part}
    (hbeginning : ∀ part ∈ beginning, part.IsLater ∨ part = .root ∨ part = .here)
    (hlater : ∀ part ∈ later, part.IsLater) : InPath (beginning.toList ++ later) := by
  cases beginning with
  | none => exact ⟨fun part h => .inl (hlater part (List.mem_of_mem_head? h)),
      fun part h => hlater part (List.mem_of_mem_tail h)⟩
  | some first => exact ⟨fun part h => hbeginning part h, hlater⟩

/-- The parts of a path are such parts. -/
theorem inPath_parts (path : String) : InPath (parts path) := by
  obtain ⟨first, between, hpath⟩ := exists_segments_eq_cons path
  have slashes : ∀ segment ∈ first :: between, separator ∉ segment.toList := by
    intro segment hsegment
    exact separator_notMem_of_mem_segments (hpath ▸ hsegment)
  rw [parts, hpath]
  refine inPath_append ?_ ?_
  · intro part hpart
    split at hpart
    · exact .inr (.inl (Option.some.inj hpart).symm)
    · split at hpart
      · exact .inr (.inr (Option.some.inj hpart).symm)
      · exact .inl (of_laterPart? (slashes first List.mem_cons_self) hpart)
  · intro part hpart
    obtain ⟨segment, hsegment, hpart⟩ := List.mem_filterMap.1 hpart
    exact of_laterPart? (slashes segment (List.mem_cons_of_mem first hsegment)) hpart

/-- Without a part at its beginning, the others still are such parts. -/
theorem InPath.drop {rest : List Part} (h : InPath rest) (n : Nat) : InPath (rest.drop n) := by
  cases n with
  | zero => exact h
  | succ n =>
      have later : ∀ part ∈ rest.drop (n + 1), part.IsLater := by
        intro part hpart
        rw [← List.drop_tail] at hpart
        exact h.later part (List.mem_of_mem_drop hpart)
      exact @inPath_append none _ (fun _ h => nomatch h) later

/-- A part that can stand anywhere is written as a segment that stands for it. -/
theorem Part.IsLater.text {part : Part} (h : part.IsLater) :
    separator ∉ part.text.toList ∧ laterPart? part.text = some part := by
  cases part with
  | root | here => exact h.elim
  | up => decide
  | name s => exact ⟨h.separator_notMem, laterPart?_of_isName h⟩

/-- Parts that can stand anywhere are found again behind a slash. -/
theorem filterMap_laterPart?_joined {later : List Part} (h : ∀ part ∈ later, part.IsLater) :
    (segments (joined (later.map Part.text))).filterMap laterPart? = later := by
  cases later with
  | nil => rfl
  | cons part later =>
      have texts : ∀ s ∈ (part :: later).map Part.text, separator ∉ s.toList :=
        List.forall_mem_map.2 fun part hpart => (h part hpart).text.1
      rw [segments_joined texts (by simp), List.filterMap_map]
      exact (List.filterMap_eq_map_iff_forall_eq_some.2 fun part hpart => (h part hpart).text.2).trans (List.map_id _)

/-- A part by itself is a path of one part. -/
theorem parts_text {part : Part} (h : part.IsLater ∨ part = .root ∨ part = .here) :
    part.text ≠ "" ∧ parts part.text = [part] := by
  rcases h with h | rfl | rfl
  · cases part with
    | root | here => exact h.elim
    | up => decide
    | name s =>
        have h : IsName s := h
        refine ⟨h.ne_empty, ?_⟩
        have alone : segments s = [s] := by
          rw [segments, splitOn_eq_singleton h.separator_notMem, List.map_singleton, String.ofList_toList]
        have relative : isAbsolute s = false := by
          have := @isAbsolute_joined [s] (by simpa using h)
          simpa [joined] using this
        simp [Part.text, parts, alone, relative, h.ne_here, laterPart?_of_isName h]
  · decide
  · decide

/-- **The parts can be told from the text** that they are joined to. -/
theorem parts_joined {rest : List Part} (h : InPath rest) : parts (joined (rest.map Part.text)) = rest := by
  cases rest with
  | nil => rfl
  | cons first later =>
      obtain ⟨hne, hfirst⟩ := parts_text (h.first first rfl)
      cases later with
      | nil => simpa [joined] using hfirst
      | cons part later =>
          have cut : joined ((first :: part :: later).map Part.text) =
              first.text ++ "/" ++ joined ((part :: later).map Part.text) := by
            rw [joined, List.map_cons, String.intercalate_cons_of_ne_nil (by simp)]
            rfl
          have behind : ∀ p ∈ part :: later, p.IsLater := h.later
          rw [cut, parts_append_slash, parts_slash_behind hne, hfirst, filterMap_laterPart?_joined behind]
          rfl

end Path

namespace Go.GoModule

open SuiteReport.Path

/-! ### The ending of external tests -/

/-- Whether an identifier has the ending of external tests. -/
def IsExternal (package : String) : Prop := externalSuffix.toList <:+ package.toList

instance (package : String) : Decidable (IsExternal package) :=
  inferInstanceAs (Decidable (externalSuffix.toList <:+ package.toList))

/-- **What it is to drop the ending**: the identifier had it once more, or it had none and is as it was. -/
def DropsEnding (package shorter : String) : Prop :=
  package = shorter ++ externalSuffix ∨ ¬ IsExternal package ∧ shorter = package

/-- An identifier with the ending put behind it has the ending. -/
theorem isExternal_append (package : String) : IsExternal (package ++ externalSuffix) := by
  rw [IsExternal, String.toList_append]
  exact List.suffix_append _ _

/-- The ending is dropped from an identifier. -/
theorem dropsEnding_withoutExternalSuffix (package : String) :
    DropsEnding package (withoutExternalSuffix package) := by
  rw [withoutExternalSuffix]
  split
  next h =>
      obtain ⟨before, hbefore⟩ := List.isSuffixOf_iff_suffix.1 h
      have length : package.length - externalSuffix.length = before.length := by
        rw [← String.length_toList, ← hbefore, List.length_append, ← String.length_toList, Nat.add_sub_cancel]
      refine .inl (String.toList_inj.1 ?_)
      rw [length, String.toList_append, String.toList_ofList, ← hbefore, List.take_left]
  next h => exact .inr ⟨fun he => h (List.isSuffixOf_iff_suffix.2 he), rfl⟩

/-- **Different identifiers become equal** exactly if one is the other one with the ending behind it, and the other
one has no ending itself. -/
theorem DropsEnding.eq_iff {package other shorter shorter' : String} (h : DropsEnding package shorter)
    (h' : DropsEnding other shorter') (hne : package ≠ other) :
    shorter = shorter' ↔
      package = other ++ externalSuffix ∧ ¬ IsExternal other ∨
        other = package ++ externalSuffix ∧ ¬ IsExternal package := by
  rcases h with rfl | ⟨hnot, rfl⟩ <;> rcases h' with rfl | ⟨hnot', rfl⟩
  · -- both have lost the ending, so they differ as before
    refine iff_of_false (fun he => hne (by rw [he])) ?_
    rintro (⟨-, hother⟩ | ⟨-, hpackage⟩)
    · exact hother (isExternal_append shorter')
    · exact hpackage (isExternal_append shorter)
  · constructor
    · rintro rfl
      exact .inl ⟨rfl, hnot'⟩
    · rintro (⟨he, -⟩ | ⟨-, hpackage⟩)
      · exact (String.append_left_inj _).1 he
      · exact absurd (isExternal_append shorter) hpackage
  · constructor
    · rintro rfl
      exact .inr ⟨rfl, hnot⟩
    · rintro (⟨-, hother⟩ | ⟨he, -⟩)
      · exact absurd (isExternal_append shorter') hother
      · exact ((String.append_left_inj _).1 he).symm
  · refine iff_of_false hne ?_
    rintro (⟨rfl, -⟩ | ⟨rfl, -⟩)
    · exact hnot (isExternal_append _)
    · exact hnot' (isExternal_append _)

/-! ### Identifiers -/

/-- The identifier of a package before the ending is dropped, where `rest` leads from the directory of the module to
the one of the package. -/
def identifier (m : GoModule) (rest : List Part) : String :=
  if rest = [] then m.path else m.path ++ "/" ++ joined (rest.map Part.text)

/-- Different ways from the directory of a module make different identifiers. -/
theorem identifier_injective (m : GoModule) {rest rest' : List Part} (h : InPath rest) (h' : InPath rest')
    (he : m.identifier rest = m.identifier rest') : rest = rest' := by
  have longer (later : String) : m.path ≠ m.path ++ "/" ++ later := by
    intro he
    have := congrArg String.length he
    simp only [String.length_append] at this
    have : "/".length = 1 := rfl
    omega
  rw [identifier, identifier] at he
  split at he <;> split at he
  next hnil hnil' => rw [hnil, hnil']
  next => exact absurd he (longer _)
  next => exact absurd he.symm (longer _)
  next =>
      have texts := (String.append_right_inj _).1 he
      rw [← parts_joined h, texts, parts_joined h']

/-- The identifier of the package in a directory of a module is made from the parts of its path. -/
theorem packageOf_of_parts (m : GoModule) {directory : String} {rest : List Part}
    (h : parts directory = parts m.root ++ rest) :
    m.packageOf directory = withoutExternalSuffix (m.identifier rest) := by
  have way : m.wayTo directory = rest.map Part.text := by
    rw [wayTo, relativeTo?, h, if_pos (List.isPrefixOf_iff_prefix.2 (List.prefix_append _ _)), List.drop_left]
    rfl
  rw [packageOf, way, identifier]
  cases rest with
  | nil => rfl
  | cons part rest => rfl

/-- A directory that is not inside the module gives its path. -/
theorem packageOf_of_outside (m : GoModule) {directory : String} (h : ¬ parts m.root <+: parts directory) :
    m.packageOf directory = withoutExternalSuffix m.path := by
  have way : m.wayTo directory = [] := by
    rw [wayTo, relativeTo?, if_neg (mt List.isPrefixOf_iff_prefix.1 h)]
    rfl
  rw [packageOf, way]
  rfl

/-- Only the parts of the path of a directory matter. -/
theorem packageOf_congr (m : GoModule) {directory directory' : String} (h : parts directory = parts directory') :
    m.packageOf directory = m.packageOf directory' := by
  have way : m.wayTo directory = m.wayTo directory' := by rw [wayTo, wayTo, relativeTo?, relativeTo?, h]
  rw [packageOf, packageOf, way]

/-- **Identifiers of packages are made part by part.** A directory inside a module gives the path of the module and
the parts of its own path behind those of the module's directory, without the ending of external tests; any other
directory gives the path of the module without the ending. Other spellings of a directory give the same identifier.
And two directories inside a module whose ways from there differ have the same identifier exactly if one of the
identifiers had the ending and is otherwise the other one, which had none. -/
theorem packageOf_by_parts (m : GoModule) :
    (∀ directory rest, parts directory = parts m.root ++ rest →
      DropsEnding (m.identifier rest) (m.packageOf directory)) ∧
    (∀ directory, ¬ parts m.root <+: parts directory → DropsEnding m.path (m.packageOf directory)) ∧
    (∀ directory other, Relation.ReflTransGen Respelled directory other →
      m.packageOf other = m.packageOf directory) ∧
    ∀ directory other rest rest', parts directory = parts m.root ++ rest → parts other = parts m.root ++ rest' →
      rest ≠ rest' → (m.packageOf directory = m.packageOf other ↔
        m.identifier rest = m.identifier rest' ++ externalSuffix ∧ ¬ IsExternal (m.identifier rest') ∨
          m.identifier rest' = m.identifier rest ++ externalSuffix ∧ ¬ IsExternal (m.identifier rest)) := by
  have inside {directory : String} {rest : List Part} (h : parts directory = parts m.root ++ rest) :
      DropsEnding (m.identifier rest) (m.packageOf directory) :=
    m.packageOf_of_parts h ▸ dropsEnding_withoutExternalSuffix _
  have inPath {directory : String} {rest : List Part} (h : parts directory = parts m.root ++ rest) :
      InPath rest := by
    have := (inPath_parts directory).drop (parts m.root).length
    rwa [h, List.drop_left] at this
  refine ⟨fun directory rest => inside, ?_, ?_, ?_⟩
  · intro directory h
    exact m.packageOf_of_outside h ▸ dropsEnding_withoutExternalSuffix _
  · intro directory other h
    induction h with
    | refl => rfl
    | tail _ hstep ih => rw [m.packageOf_congr (parts_of_respelled hstep), ih]
  · intro directory other rest rest' h h' hne
    exact (inside h).eq_iff (inside h') fun he => hne (m.identifier_injective (inPath h) (inPath h') he)

/-- A package and its external tests have one identifier, however their directories are spelled. -/
theorem packageOf_by_parts_externalTests :
    let m : GoModule := ⟨"/src/proj", "example.com/proj"⟩
    m.packageOf "/src/proj/api_test" = m.packageOf "/src/proj/api" ∧
      m.packageOf "/src/proj/./api/" = m.packageOf "/src/proj/api" := by
  intro m
  obtain ⟨-, -, spelled, equal⟩ := packageOf_by_parts m
  refine ⟨?_, spelled _ _ (.tail (.single (.dotBetween "/src/proj" "api")) (.slashBehind _ (by decide)))⟩
  exact (equal _ _ [.name "api_test"] [.name "api"] (by decide) (by decide) (by decide)).2 (.inl (by decide))

/-- **Nothing may be put behind the empty path.** There is a module whose identifier for a directory changes when a
slash is put behind the path of the directory. -/
theorem exists_packageOf_slash_ne :
    ∃ (m : GoModule) (directory : String), m.packageOf (directory ++ "/") ≠ m.packageOf directory :=
  ⟨⟨"", "m"⟩, "", by decide⟩

end Go.GoModule

end SuiteReport
