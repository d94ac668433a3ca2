import SuiteReport.Go.Discovery
import SuiteReport.Proofs.Files.Resolution
import SuiteReport.Proofs.Text.Decoding
/-!
# The module of a directory

The search for a module goes up from a directory. It finds the module of the nearest directory that has a
module file, provided that the file is a text and declares a path, and it does not look past a module file that is
of no use. A directory thus has the same module as the one above it, unless it has a module file of its own.

## Main definitions

* `Discovery.Declares`: what the module file of a directory declares.
* `Discovery.Owns`: to which module a directory belongs.

## Main results

* `Discovery.owns_append_iff`: directories below one another without a module file between them.
* `Discovery.findModule_eq_ok_iff`: the module that the search finds.
-/

namespace SuiteReport.Go.Discovery

variable {fs : FileSystem} {base directory outer owner way : List String} {name path root : String}
  {entries : List (String × FileNode)} {found : GoModule}

/-! ### Belonging to a module -/

/-- Whether the module file of a directory is a text that declares the path. -/
def Declares (fs : FileSystem) (owner : List String) (path : String) : Prop :=
  ∃ content : String, fs.read owner "go.mod" = .ok (Bytes.ofString content) ∧
    GoModule.declaredPath? content = some path

/-- Whether `owner` is the nearest directory with a module file from `directory` upwards, and its module file
declares the path. -/
structure Owns (fs : FileSystem) (owner : List String) (path : String) (directory : List String) : Prop where
  /-- The directory lies at or below the one of the module. -/
  above : owner <+: directory
  /-- The module declares the path. -/
  declares : Declares fs owner path
  /-- No directory in between has a module file. -/
  nearest : ∀ inner, owner <+: inner → inner <+: directory → inner ≠ owner → fs.isFile inner "go.mod" = false

/-- Module files have a name that entries can have. -/
theorem isName_fileName : Path.IsName "go.mod" := by decide

/-- A directory whose module file declares something has a module file. -/
theorem Declares.isFile (h : Declares fs owner path) : fs.isFile owner "go.mod" = true := by
  obtain ⟨content, hread, -⟩ := h
  exact FileSystem.isFile_of_read hread

/-- A directory with a module file belongs to no other module. -/
theorem owns_iff_of_isFile (h : fs.isFile directory "go.mod" = true) :
    Owns fs owner path directory ↔ owner = directory ∧ Declares fs directory path := by
  constructor
  · rintro ⟨habove, hdeclares, hnearest⟩
    obtain rfl : owner = directory := by
      by_contra hne
      simpa [h] using hnearest directory habove List.prefix_rfl (Ne.symm hne)
    exact ⟨rfl, hdeclares⟩
  · rintro ⟨rfl, hdeclares⟩
    exact ⟨List.prefix_rfl, hdeclares, fun inner hfrom hto hne => absurd (hto.eq_of_length_le hfrom.length_le) hne⟩

/-- A directory without a module file belongs to the module of the one above it. -/
theorem owns_concat_iff (h : fs.isFile (outer ++ [name]) "go.mod" = false) :
    Owns fs owner path (outer ++ [name]) ↔ Owns fs owner path outer := by
  constructor
  · rintro ⟨habove, hdeclares, hnearest⟩
    rcases List.prefix_concat_iff.1 habove with rfl | habove
    · simp [hdeclares.isFile] at h
    · exact ⟨habove, hdeclares, fun inner hfrom hto =>
        hnearest inner hfrom (hto.trans (List.prefix_append _ _))⟩
  · rintro ⟨habove, hdeclares, hnearest⟩
    refine ⟨habove.trans (List.prefix_append _ _), hdeclares, fun inner hfrom hto hne => ?_⟩
    rcases List.prefix_concat_iff.1 hto with rfl | hto
    · exact h
    · exact hnearest inner hfrom hto hne

/-- The root directory belongs to no module without a module file of its own. -/
theorem not_owns_nil (h : fs.isFile [] "go.mod" = false) : ¬ Owns fs owner path [] := by
  intro howns
  obtain rfl := List.prefix_nil.1 howns.above
  simp [howns.declares.isFile] at h

/-- **Directories below one another** belong to the same module if there is no module file on the way. -/
theorem owns_append_iff (h : ∀ inner, inner ≠ [] → inner <+: way → fs.isFile (directory ++ inner) "go.mod" = false) :
    Owns fs owner path (directory ++ way) ↔ Owns fs owner path directory := by
  induction way using List.reverseRecOn with
  | nil => rw [List.append_nil]
  | append_singleton way name ih =>
      have last := h (way ++ [name]) (by simp) List.prefix_rfl
      rw [← List.append_assoc] at last
      rw [← List.append_assoc, owns_concat_iff last]
      exact ih fun inner hne hinner => h inner hne (hinner.trans (List.prefix_append _ _))

/-! ### Searching for a module -/

/-- From a directory the search goes on to the one above it and those above that one. -/
theorem ancestors_concat (outer : List String) (name : String) :
    Path.ancestors (outer ++ [name]) = (outer ++ [name]) :: Path.ancestors outer := by
  have whole : (outer ++ [name]).take (outer.length + 1) = outer ++ [name] := List.take_of_length_le (by simp)
  have further : ∀ n ∈ (List.range (outer.length + 1)).reverse, (outer ++ [name]).take n = outer.take n := by
    intro n hn
    have hle : n ≤ outer.length := by simpa [Nat.lt_succ_iff] using hn
    exact List.take_append_of_le_length hle
  rw [Path.ancestors, Path.ancestors, List.length_append, List.length_singleton, List.range_succ,
    List.reverse_append, List.reverse_singleton, List.singleton_append, List.map_cons, whole,
    List.map_congr_left further]

/-- What is read of a file as a text. -/
theorem run_readText (fs : FileSystem) (base : List String) (file : String) :
    Id.run ((fs.view base).readText file) =
      match fs.read base file with
      | .error e => .error e
      | .ok content =>
        match Bytes.decode? content with
        | none => .error .notText
        | some text => .ok text := by
  unfold FileView.readText
  rfl

/-- A text is read exactly from the encoding of it. -/
theorem readText_eq_ok_iff {file text : String} :
    Id.run ((fs.view base).readText file) = .ok text ↔ fs.read base file = .ok (Bytes.ofString text) := by
  rw [run_readText]
  cases fs.read base file with
  | error e => simp
  | ok content =>
      rw [Except.ok.injEq, ← Bytes.decode?_eq_some_iff]
      cases hdecoded : Bytes.decode? content <;> simp [hdecoded]

/-- What the search does at one directory. -/
theorem run_moduleOf_cons (fs : FileSystem) (base : List String) (root : String) (directory : List String)
    (further : List (List String)) :
    Id.run (moduleOf (fs.view base) root (directory :: further)) =
      if fs.isFile base (Path.join (Path.ofNames directory) GoModule.fileName) then
        match Id.run ((fs.view base).readText (Path.join (Path.ofNames directory) GoModule.fileName)) with
        | .error e => .error (.file e)
        | .ok content =>
          match GoModule.declaredPath? content with
          | none => .error (.moduleNotFound (Path.join (Path.ofNames directory) GoModule.fileName))
          | some declared => .ok ⟨Path.ofNames directory, declared⟩
      else
        Id.run (moduleOf (fs.view base) root further) := by
  rw [moduleOf]
  rfl

/-- A directory without a module file is passed over. -/
theorem moduleOf_of_not_isFile (hfs : fs.Proper) (hdir : fs.node? directory = some (.directory entries))
    (hfile : fs.isFile directory "go.mod" = false) (further : List (List String)) :
    Id.run (moduleOf (fs.view base) root (directory :: further)) = Id.run (moduleOf (fs.view base) root further) := by
  have passed : fs.isFile base (Path.join (Path.ofNames directory) GoModule.fileName) = false :=
    (FileSystem.isFile_join hfs hdir isName_fileName base).trans hfile
  rw [run_moduleOf_cons, passed, if_neg Bool.false_ne_true]

/-- The search ends at a directory with a module file. -/
theorem moduleOf_of_isFile (hfs : fs.Proper) (hdir : fs.node? directory = some (.directory entries))
    (hfile : fs.isFile directory "go.mod" = true) (further : List (List String)) :
    Id.run (moduleOf (fs.view base) root (directory :: further)) = .ok found ↔
      ∃ path, Declares fs directory path ∧ found = ⟨Path.ofNames directory, path⟩ := by
  have stopped : fs.isFile base (Path.join (Path.ofNames directory) GoModule.fileName) = true :=
    (FileSystem.isFile_join hfs hdir isName_fileName base).trans hfile
  have reading : fs.read base (Path.join (Path.ofNames directory) GoModule.fileName) = fs.read directory "go.mod" :=
    FileSystem.read_join hfs hdir isName_fileName base
  have content (text : String) :
      Id.run ((fs.view base).readText (Path.join (Path.ofNames directory) GoModule.fileName)) = .ok text ↔
        fs.read directory "go.mod" = .ok (Bytes.ofString text) := by
    rw [readText_eq_ok_iff, reading]
  simp only [run_moduleOf_cons, stopped, if_true, Declares, ← content]
  cases Id.run ((fs.view base).readText (Path.join (Path.ofNames directory) GoModule.fileName)) with
  | error e => simp
  | ok text =>
      cases hpath : GoModule.declaredPath? text with
      | none => simp [hpath]
      | some path => simp [hpath, eq_comm]

/-- The search upwards from a directory finds the module that the directory belongs to. -/
theorem moduleOf_ancestors_eq_ok_iff (hfs : fs.Proper) (hdir : fs.node? directory = some (.directory entries)) :
    Id.run (moduleOf (fs.view base) root (Path.ancestors directory)) = .ok found ↔
      ∃ owner path, Owns fs owner path directory ∧ found = ⟨Path.ofNames owner, path⟩ := by
  induction directory using List.reverseRecOn generalizing entries with
  | nil =>
      have root : Path.ancestors [] = [[]] := rfl
      rw [root]
      cases hfile : fs.isFile [] "go.mod" with
      | true => simp [moduleOf_of_isFile hfs hdir hfile, owns_iff_of_isFile hfile]
      | false =>
          rw [moduleOf_of_not_isFile hfs hdir hfile]
          simp [not_owns_nil hfile, moduleOf]
  | append_singleton outer name ih =>
      obtain ⟨siblings, houter⟩ := FileSystem.exists_of_node?_append hdir (List.cons_ne_nil _ _)
      rw [ancestors_concat]
      cases hfile : fs.isFile (outer ++ [name]) "go.mod" with
      | true => simp [moduleOf_of_isFile hfs hdir hfile, owns_iff_of_isFile hfile]
      | false => simp [moduleOf_of_not_isFile hfs hdir hfile, owns_concat_iff hfile, ih houter]

/-- What the search for a module does from the directory that a path leads to. -/
theorem run_findModule (fs : FileSystem) (base : List String) (root : String) :
    Id.run (findModule (fs.view base) root) =
      match (fs.resolve base root).toOption with
      | none => .error (.rootNotFound root)
      | some directory =>
        if fs.isDirectory base (Path.ofNames directory) then
          match Id.run (moduleOf (fs.view base) root (Path.ancestors directory)) with
          | .error e => .error e
          | .ok found => .ok (directory, found)
        else
          .error (.rootNotFound root) := by
  unfold findModule
  rfl

/-- **The module that is found** is the one that the directory at the end of the path belongs to. -/
theorem findModule_eq_ok_iff (hfs : fs.Proper) (hroot : fs.resolve base root = .ok directory)
    (hdir : fs.node? directory = some (.directory entries)) {place : List String} :
    Id.run (findModule (fs.view base) root) = .ok (place, found) ↔
      place = directory ∧ ∃ owner path, Owns fs owner path directory ∧ found = ⟨Path.ofNames owner, path⟩ := by
  have entered : (fs.resolve base root).toOption = some directory := by rw [hroot]; rfl
  simp only [run_findModule, entered, FileSystem.isDirectory_ofNames hfs hdir, if_true]
  have upwards : Id.run (moduleOf (fs.view base) root (Path.ancestors directory)) = .ok found ↔ _ :=
    moduleOf_ancestors_eq_ok_iff hfs hdir
  rw [← upwards]
  cases Id.run (moduleOf (fs.view base) root (Path.ancestors directory)) with
  | error e => simp
  | ok found => simp [eq_comm]

end SuiteReport.Go.Discovery
