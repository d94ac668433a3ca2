import Mathlib.Data.List.Infix
import SuiteReport.Files.System
import SuiteReport.Proofs.Text.Split
/-!
# Paths made of names

The entries of directories have names that are not empty, have no slash in them and are neither of the two
names with a meaning of their own. A path put together from such names is taken apart into the same names
again, so names and paths say the same.

## Main definitions

* `Path.IsName`: what an entry of a directory can be called.

## Main results

* `Path.joined_injective`: different names make different paths.
* `Path.relativeTo?_ofNames`: one path seen from another.
* `Path.join_ofNames_joined`, `Path.join_joined`: a path of names below another path.
* `FileSystem.steps_ofNames`: the steps along a path of names.
-/

namespace SuiteReport

namespace Path

/-- Whether an entry of a directory can be called so. -/
structure IsName (s : String) : Prop where
  /-- The name has a character. -/
  ne_empty : s ≠ ""
  /-- The name is a single segment. -/
  separator_notMem : separator ∉ s.toList
  /-- The name is not that of the directory itself. -/
  ne_here : s ≠ "."
  /-- The name is not that of the directory above. -/
  ne_up : s ≠ ".."

instance (s : String) : Decidable (IsName s) :=
  decidable_of_iff (s ≠ "" ∧ separator ∉ s.toList ∧ s ≠ "." ∧ s ≠ "..")
    ⟨fun ⟨h₁, h₂, h₃, h₄⟩ => ⟨h₁, h₂, h₃, h₄⟩, fun ⟨h₁, h₂, h₃, h₄⟩ => ⟨h₁, h₂, h₃, h₄⟩⟩

variable {names more : List String}

/-! ### Segments -/

/-- The segments of texts put together with slashes are the texts, unless there is none. -/
theorem segments_joined (h : ∀ s ∈ names, separator ∉ s.toList) (hne : names ≠ []) :
    segments (joined names) = names := by
  have parts : (names.map String.toList).map String.ofList = names := by simp
  have split : splitOn separator (joined names).toList = names.map String.toList := by
    rw [splitOn_eq, joined, String.toList_intercalate]
    exact List.splitOn_intercalate separator (by simpa using h) (by simpa using hne)
  rw [segments, split, parts]

/-- An absolute path has an empty segment in front. -/
theorem segments_ofNames (names : List String) : segments (ofNames names) = "" :: segments (joined names) := by
  have slash : (ofNames names).toList = separator :: (joined names).toList := by
    rw [ofNames, String.toList_append]
    rfl
  rw [segments, slash, splitOn, if_pos rfl]
  rfl

/-- Different lists of names are put together differently. -/
theorem joined_injective (hnames : ∀ s ∈ names, IsName s) (hmore : ∀ s ∈ more, IsName s) (hne : names ≠ [])
    (hne' : more ≠ []) (h : joined names = joined more) : names = more := by
  rw [← segments_joined (fun s hs => (hnames s hs).separator_notMem) hne, h,
    segments_joined (fun s hs => (hmore s hs).separator_notMem) hne']

/-! ### Absolute paths -/

/-- A path from the root directory is absolute. -/
theorem isAbsolute_ofNames (names : List String) : isAbsolute (ofNames names) = true := by
  rw [isAbsolute, ofNames, String.toList_append]
  rfl

/-- A path from the root directory is not empty. -/
theorem ofNames_ne_empty : ofNames names ≠ "" := by
  intro h
  simpa [ofNames] using congrArg String.toList h

/-! ### Parts -/

/-- A name is a part of its own. -/
theorem laterPart?_of_isName {s : String} (h : IsName s) : laterPart? s = some (.name s) := by
  simp [laterPart?, h.ne_empty, h.ne_here, h.ne_up]

/-- The parts of an absolute path are the root directory and its names. -/
theorem parts_ofNames (h : ∀ s ∈ names, IsName s) : parts (ofNames names) = .root :: names.map .name := by
  have later : (segments (joined names)).filterMap laterPart? = names.map .name := by
    cases names with
    | nil => rfl
    | cons s names =>
        rw [segments_joined (fun t ht => (h t ht).separator_notMem) (List.cons_ne_nil _ _),
          List.filterMap_eq_map_iff_forall_eq_some]
        exact fun t ht => laterPart?_of_isName (h t ht)
  rw [parts, segments_ofNames]
  simp only [isAbsolute_ofNames, if_true, Option.toList_some, later, List.singleton_append]

/-- **One path seen from another** is what follows the names of that one. -/
theorem relativeTo?_ofNames (hnames : ∀ s ∈ names, IsName s) (hmore : ∀ s ∈ more, IsName s) :
    relativeTo? (ofNames names) (ofNames more) =
      if names <+: more then some ((more.drop names.length).map .name) else none := by
  have injective : Function.Injective Part.name := fun _ _ h => Part.name.inj h
  simp [relativeTo?, parts_ofNames hnames, parts_ofNames hmore, List.prefix_map_iff_of_injective injective]

/-! ### Joining -/

/-- Every text but the first one has a slash before it. -/
theorem toList_joined_cons (s : String) (names : List String) :
    (joined (s :: names)).toList = s.toList ++ names.flatMap fun t => separator :: t.toList := by
  induction names generalizing s with
  | nil => simp [joined]
  | cons t names ih =>
      have slash : "/".toList = [separator] := rfl
      rw [List.flatMap_cons, List.cons_append, ← ih, joined, String.intercalate_cons_cons,
        String.toList_append, String.toList_append, List.append_assoc, slash, List.singleton_append]
      rfl

/-- A path of names does not begin with a slash. -/
theorem isAbsolute_joined (h : ∀ s ∈ names, IsName s) : isAbsolute (joined names) = false := by
  cases names with
  | nil => rfl
  | cons s names =>
      obtain ⟨hne, hslash, -, -⟩ := h s List.mem_cons_self
      cases hs : s.toList with
      | nil => exact absurd (String.toList_eq_nil_iff.1 hs) hne
      | cons c rest =>
          have hc : c ≠ separator := fun hc => hslash (by simp [hs, hc])
          simpa [isAbsolute, toList_joined_cons, hs] using hc

/-- In the path of some names every name has a slash before it. -/
theorem toList_ofNames (hne : names ≠ []) :
    (ofNames names).toList = names.flatMap fun s => separator :: s.toList := by
  cases names with
  | nil => exact absurd rfl hne
  | cons s names =>
      rw [ofNames, String.toList_append, toList_joined_cons, List.flatMap_cons]
      rfl

/-- The path of some names goes on with that of further ones. -/
theorem ofNames_append (hne : names ≠ []) (hne' : more ≠ []) :
    ofNames (names ++ more) = ofNames names ++ ofNames more := by
  apply String.toList_injective
  rw [String.toList_append, toList_ofNames hne, toList_ofNames hne', toList_ofNames (by simp [hne]),
    List.flatMap_append]

/-- Between the names of two lists there is one more slash. -/
theorem joined_append (hne : names ≠ []) (hne' : more ≠ []) :
    joined (names ++ more) = joined names ++ "/" ++ joined more := by
  have slashed := congrArg String.toList (ofNames_append hne hne')
  simp only [ofNames, String.toList_append, List.append_assoc] at slashed
  apply String.toList_injective
  simpa only [String.toList_append, List.append_assoc] using List.append_cancel_left slashed

/-- Only the path of the root directory ends in a slash. -/
theorem getLast?_ofNames (h : ∀ s ∈ names, IsName s) :
    (ofNames names).toList.getLast? = some separator ↔ names = [] := by
  rcases List.eq_nil_or_concat names with rfl | ⟨outer, s, rfl⟩
  · exact iff_of_true rfl rfl
  · refine iff_of_false (fun hlast => ?_) (by simp)
    obtain ⟨hne, hslash, -, -⟩ := h s (by simp)
    have hs : s.toList ≠ [] := fun hs => hne (String.toList_eq_nil_iff.1 hs)
    rw [List.concat_eq_append, toList_ofNames (by simp), List.flatMap_append, List.flatMap_singleton,
      List.getLast?_append, List.getLast?_cons, List.getLast?_eq_some_getLast hs] at hlast
    exact hslash (Option.some.inj hlast ▸ List.getLast_mem hs)

/-- **A path of names below a directory** is the path of all the names. -/
theorem join_ofNames_joined (hnames : ∀ s ∈ names, IsName s) (hmore : ∀ s ∈ more, IsName s) (hne : more ≠ []) :
    join (ofNames names) (joined more) = ofNames (names ++ more) := by
  rw [join, if_neg (by simp [isAbsolute_joined hmore, ofNames_ne_empty])]
  by_cases hnil : names = []
  · rw [if_pos ((getLast?_ofNames hnames).2 hnil), hnil]
    rfl
  · rw [if_neg (fun hlast => hnil ((getLast?_ofNames hnames).1 hlast))]
    rw [ofNames_append hnil hne, String.append_assoc]
    rfl

/-- **A path of names below another one** is the path of the names of both. -/
theorem join_joined (hnames : ∀ s ∈ names, IsName s) (hmore : ∀ s ∈ more, IsName s) (hne : more ≠ []) :
    join (joined names) (joined more) = joined (names ++ more) := by
  by_cases hnil : names = []
  · rw [hnil, join, if_pos (Or.inr (by simp [joined]))]
    rfl
  · have hlast : (ofNames names).toList.getLast? ≠ some separator := fun h => hnil ((getLast?_ofNames hnames).1 h)
    have hnonempty : joined names ≠ "" := fun h => hlast (by rw [ofNames, h]; rfl)
    have hend : (joined names).toList.getLast? ≠ some separator := fun h =>
      hlast (by rw [ofNames, String.toList_append, List.getLast?_append, h]; rfl)
    rw [join, if_neg (by simp [isAbsolute_joined hmore, hnonempty]), if_neg hend, joined_append hnil hne]

end Path

namespace FileSystem

open SuiteReport.Path

variable {names : List String}

/-- Names are followed as they are, and the last of them asks for no directory. -/
theorem steps_of_segments {path : String} (h : ∀ s ∈ names, IsName s)
    (hpath : (segments path).filter (· != "") = names) (hlast : (segments path).getLast? = names.getLast?) :
    steps path = names := by
  have file : names.getLast? ≠ some "" := fun hempty => (h _ (List.mem_of_getLast? hempty)).ne_empty rfl
  rw [steps, hpath, hlast, if_neg file, List.append_nil]

/-- A name is a single step. -/
theorem steps_of_isName {s : String} (h : IsName s) : steps s = [s] := by
  have single : segments s = [s] := by
    have hslash : ∀ t ∈ [s], separator ∉ t.toList := by simpa using h.separator_notMem
    simpa [joined] using segments_joined hslash (by simp)
  exact steps_of_segments (by simpa using h) (by simp [single, h.ne_empty]) (by rw [single])

/-- **The steps along a path of names** are the names. -/
theorem steps_ofNames (h : ∀ s ∈ names, IsName s) (hne : names ≠ []) : steps (ofNames names) = names := by
  have segmented : segments (ofNames names) = "" :: names := by
    rw [segments_ofNames, segments_joined (fun s hs => (h s hs).separator_notMem) hne]
  refine steps_of_segments h ?_ ?_
  · rw [segmented, List.filter_cons_of_neg (by simp), List.filter_eq_self]
    exact fun s hs => by simpa using (h s hs).ne_empty
  · rw [segmented, List.getLast?_cons, List.getLast?_eq_some_getLast hne]
    rfl

end FileSystem

end SuiteReport
