import SuiteReport.Proofs.Files.Path
/-!
# Following paths through directories

In a proper file system the entries of every directory have names, each its own. There the names that lead to a
directory without links are the one place where its path leads, from wherever the path is followed, and what is
looked for in the directory is found as if one were in it.

## Main definitions

* `FileNode.Proper`, `FileSystem.Proper`: file systems as they can be.
* `FileSystem.Follows`: the ways that steps take.

## Main results

* `FileSystem.follows_of_follow`: steps that lead somewhere take a way there.
* `FileSystem.follow_append`: following names through directories.
* `FileSystem.resolve_ofNames`: the path of a directory leads to it.
* `FileSystem.locate_join`: what is looked for in a directory.
* `FileSystem.isFile_iff`: which entries of a directory lead to a regular file.
-/

namespace SuiteReport

open SuiteReport.Path (IsName)

namespace FileNode

/-- Whether the entries of all directories have names, and no two entries of one directory have the same. -/
inductive Proper : FileNode → Prop where
  | file (content : Bytes) : Proper (.file content)
  | link (target : String) : Proper (.link target)
  | directory {entries : List (String × FileNode)} (distinct : (entries.map Prod.fst).Nodup)
      (names : ∀ e ∈ entries, IsName e.1) (nodes : ∀ e ∈ entries, Proper e.2) : Proper (.directory entries)

variable {entries : List (String × FileNode)} {name : String} {names : List String} {node child : FileNode}

/-- What makes a directory proper. -/
theorem proper_directory_iff :
    (directory entries).Proper ↔ (entries.map Prod.fst).Nodup ∧ ∀ e ∈ entries, IsName e.1 ∧ e.2.Proper := by
  constructor
  · intro h
    cases h with
    | directory distinct names nodes => exact ⟨distinct, fun e he => ⟨names e he, nodes e he⟩⟩
  · rintro ⟨distinct, h⟩
    exact .directory distinct (fun e he => (h e he).1) (fun e he => (h e he).2)

/-- Where names are distinct an entry is what is found under its name. -/
theorem lookup_eq_some_iff (distinct : (entries.map Prod.fst).Nodup) :
    entries.lookup name = some node ↔ (name, node) ∈ entries := by
  rw [List.lookup_eq_some_iff]
  constructor
  · rintro ⟨before, after, rfl, -⟩
    simp
  · intro h
    obtain ⟨before, after, rfl⟩ := List.append_of_mem h
    refine ⟨before, after, rfl, fun e he => ?_⟩
    rw [List.map_append, List.map_cons, List.nodup_append] at distinct
    simpa using (distinct.2.2 e.1 (List.mem_map_of_mem he) name (by simp)).symm

/-- Below a node, names are followed one list after the other. -/
theorem at?_append (names more : List String) (node : FileNode) :
    at? (names ++ more) node = (at? names node).bind (at? more) := by
  induction names generalizing node with
  | nil => rfl
  | cons name names ih =>
      rw [List.cons_append, at?, at?]
      cases node.entry? name with
      | none => rfl
      | some child => exact ih child

/-- What is entered by a name is a directory. -/
theorem exists_of_at?_cons (h : at? (name :: names) node = some child) :
    ∃ entries next, node = .directory entries ∧ entries.lookup name = some next ∧ at? names next = some child := by
  obtain ⟨next, hnext, hrest⟩ := Option.bind_eq_some_iff.1 h
  cases node with
  | directory entries => exact ⟨entries, next, rfl, hnext, hrest⟩
  | file content => simp [ entry?] at hnext
  | link target => simp [ entry?] at hnext

namespace Proper

/-- What lies in a proper directory is proper. -/
theorem of_lookup (h : Proper (.directory entries)) (hname : entries.lookup name = some node) :
    IsName name ∧ node.Proper := by
  obtain ⟨distinct, h⟩ := proper_directory_iff.1 h
  exact h (name, node) ((lookup_eq_some_iff distinct).1 hname)

/-- What lies below a proper node is proper, and so are the names that lead there. -/
theorem of_at? (h : node.Proper) (hat : at? names node = some child) :
    (∀ s ∈ names, IsName s) ∧ child.Proper := by
  induction names generalizing node with
  | nil =>
      obtain rfl := Option.some.inj hat
      exact ⟨by simp, h⟩
  | cons name names ih =>
      obtain ⟨entries, next, rfl, hnext, hat⟩ := exists_of_at?_cons hat
      obtain ⟨hname, hproper⟩ := h.of_lookup hnext
      obtain ⟨hnames, hchild⟩ := ih hproper hat
      exact ⟨List.forall_mem_cons.2 ⟨hname, hnames⟩, hchild⟩

end Proper

end FileNode

namespace FileSystem

/-- Whether the entries of all directories have names, and no two entries of one directory have the same. -/
def Proper (fs : FileSystem) : Prop := fs.root.Proper

variable {fs : FileSystem} {base directory way here : List String} {name : String} {node : FileNode}
  {entries : List (String × FileNode)}

/-! ### Places -/

/-- Names are followed one list after the other. -/
theorem node?_append (fs : FileSystem) (directory way : List String) :
    fs.node? (directory ++ way) = (fs.node? directory).bind (FileNode.at? way) :=
  FileNode.at?_append directory way fs.root

/-- What lies in a directory is found under its name. -/
theorem node?_concat (hdir : fs.node? directory = some (.directory entries)) (name : String) :
    fs.node? (directory ++ [name]) = entries.lookup name := by
  rw [node?_append, hdir]
  cases h : entries.lookup name <;> simp [FileNode.at?, FileNode.entry?, h]

/-- What is on the way to something is a directory. -/
theorem exists_of_node?_append (h : fs.node? (directory ++ way) = some node) (hne : way ≠ []) :
    ∃ entries, fs.node? directory = some (.directory entries) := by
  obtain ⟨name, way, rfl⟩ := List.exists_cons_of_ne_nil hne
  rw [node?_append] at h
  obtain ⟨outer, houter, h⟩ := Option.bind_eq_some_iff.1 h
  obtain ⟨entries, -, rfl, -⟩ := FileNode.exists_of_at?_cons h
  exact ⟨entries, houter⟩

/-- The names that lead to something are names, and what they lead to is proper. -/
theorem Proper.of_node? (h : fs.Proper) (hnode : fs.node? directory = some node) :
    (∀ s ∈ directory, IsName s) ∧ node.Proper :=
  FileNode.Proper.of_at? h hnode

/-! ### Following -/

/-- A step from a directory, by what lies behind it. -/
theorem follow_step (hhere : fs.node? here = some (.directory entries)) (links : Nat) (step : String)
    (later : List String) :
    fs.follow links here (step :: later) =
      if step = "." then fs.follow links here later
      else if step = ".." then fs.follow links here.dropLast later
      else
        match fs.node? (here ++ [step]) with
        | none => if later.isEmpty then .ok (.vacant (here ++ [step])) else .error .notFound
        | some (.link target) =>
          match links with
          | 0 => .error .tooManyLinks
          | links + 1 => fs.follow links (origin here target) (steps target ++ later)
        | some _ => fs.follow links (here ++ [step]) later := by
  have unfolded := follow.eq_def fs links here (step :: later)
  rw [hhere] at unfolded
  rw [node?_concat hhere]
  exact unfolded

section Step

variable {links : Nat} {step : String} {later : List String} (hhere : fs.node? here = some (.directory entries))
  (hstep : step ≠ ".") (hup : step ≠ "..")

include hhere hstep hup

/-- A step to where nothing lies. -/
theorem follow_step_of_none (hnone : fs.node? (here ++ [step]) = none) :
    fs.follow links here (step :: later) =
      if later.isEmpty then .ok (.vacant (here ++ [step])) else .error .notFound := by
  rw [follow_step hhere, if_neg hstep, if_neg hup, hnone]

/-- A step to a link. -/
theorem follow_step_of_link {target : String} (hlink : fs.node? (here ++ [step]) = some (.link target)) :
    fs.follow links here (step :: later) =
      match links with
      | 0 => .error .tooManyLinks
      | links + 1 => fs.follow links (origin here target) (steps target ++ later) := by
  rw [follow_step hhere, if_neg hstep, if_neg hup, hlink]

/-- A step to a file or a directory. -/
theorem follow_step_of_node {node : FileNode} (hnode : fs.node? (here ++ [step]) = some node)
    (hlink : ∀ target, node ≠ .link target) :
    fs.follow links here (step :: later) = fs.follow links (here ++ [step]) later := by
  rw [follow_step hhere, if_neg hstep, if_neg hup, hnode]
  cases node with
  | link target => exact absurd rfl (hlink target)
  | _ => rfl

end Step

/-- Nothing is followed from what is no directory. -/
theorem follow_of_ne (hhere : ∀ entries, fs.node? here ≠ some (.directory entries)) (links : Nat) (step : String)
    (later : List String) : fs.follow links here (step :: later) = .error .notADirectory := by
  rw [follow]
  split
  · next entries h => exact absurd h (hhere entries)
  · rfl

/-- The ways that steps take through a file system, whatever the number of links on them. -/
inductive Follows (fs : FileSystem) : List String → List String → Place → Prop
  /-- No step is left. -/
  | arrived {here : List String} : Follows fs here [] (.existing here)
  /-- A step that stays in a directory. -/
  | stay {here later : List String} {entries : List (String × FileNode)} {p : Place}
      (hhere : fs.node? here = some (.directory entries)) (hlater : Follows fs here later p) :
      Follows fs here ("." :: later) p
  /-- A step to the directory above. -/
  | up {here later : List String} {entries : List (String × FileNode)} {p : Place}
      (hhere : fs.node? here = some (.directory entries)) (hlater : Follows fs here.dropLast later p) :
      Follows fs here (".." :: later) p
  /-- A last step to where nothing lies. -/
  | vacant {here : List String} {step : String} {entries : List (String × FileNode)}
      (hhere : fs.node? here = some (.directory entries)) (hstep : step ≠ "." ∧ step ≠ "..")
      (hvacant : fs.node? (here ++ [step]) = none) : Follows fs here [step] (.vacant (here ++ [step]))
  /-- A step to a link, in place of which its target is followed. -/
  | link {here later : List String} {step target : String} {p : Place} (hstep : step ≠ "." ∧ step ≠ "..")
      (hlink : fs.node? (here ++ [step]) = some (.link target))
      (hlater : Follows fs (origin here target) (steps target ++ later) p) : Follows fs here (step :: later) p
  /-- A step to a file or a directory. -/
  | enter {here later : List String} {step : String} {node : FileNode} {p : Place} (hstep : step ≠ "." ∧ step ≠ "..")
      (hnode : fs.node? (here ++ [step]) = some node) (hlink : ∀ target, node ≠ .link target)
      (hlater : Follows fs (here ++ [step]) later p) : Follows fs here (step :: later) p

/-- **Steps that lead somewhere take a way there.** -/
theorem follows_of_follow {links : Nat} {remaining : List String} {p : Place}
    (h : fs.follow links here remaining = .ok p) : fs.Follows here remaining p := by
  induction links, here, remaining using FileSystem.follow.induct fs with
  | case1 links here =>
      rw [follow] at h
      obtain rfl := Except.ok.inj h
      exact .arrived
  | case2 links here later entries hdir ih =>
      rw [follow_step hdir, if_pos rfl] at h
      exact .stay hdir (ih h)
  | case3 links here later entries hdir hstep ih =>
      rw [follow_step hdir, if_neg hstep, if_pos rfl] at h
      exact .up hdir (ih h)
  | case4 links here step later entries hdir hstep hup hlookup hlater =>
      rw [← node?_concat hdir] at hlookup
      rw [follow_step_of_none hdir hstep hup hlookup, if_pos hlater] at h
      obtain rfl := Except.ok.inj h
      obtain rfl := List.isEmpty_iff.1 hlater
      exact .vacant hdir ⟨hstep, hup⟩ hlookup
  | case5 links here step later entries hdir hstep hup hlookup hlater =>
      rw [← node?_concat hdir] at hlookup
      rw [follow_step_of_none hdir hstep hup hlookup, if_neg hlater] at h
      cases h
  | case6 here step later entries hdir hstep hup target hlookup =>
      rw [← node?_concat hdir] at hlookup
      rw [follow_step_of_link hdir hstep hup hlookup] at h
      cases h
  | case7 here step later entries hdir hstep hup target hlookup links ih =>
      rw [← node?_concat hdir] at hlookup
      rw [follow_step_of_link hdir hstep hup hlookup] at h
      exact .link ⟨hstep, hup⟩ hlookup (ih h)
  | case8 links here step later entries hdir hstep hup node hlink hlookup ih =>
      rw [← node?_concat hdir] at hlookup
      rw [follow_step_of_node hdir hstep hup hlookup hlink] at h
      exact .enter ⟨hstep, hup⟩ hlookup hlink (ih h)
  | case9 links here step later hdir =>
      rw [follow_of_ne hdir] at h
      cases h

/-- A name is looked for in the directory where one is. -/
theorem follow_cons (hhere : fs.node? here = some (.directory entries)) (hname : IsName name) (links : Nat)
    (later : List String) :
    fs.follow links here (name :: later) =
      match entries.lookup name with
      | none => if later.isEmpty then .ok (.vacant (here ++ [name])) else .error .notFound
      | some (.link target) =>
        match links with
        | 0 => .error .tooManyLinks
        | links + 1 => fs.follow links (origin here target) (steps target ++ later)
      | some _ => fs.follow links (here ++ [name]) later := by
  rw [follow_step hhere, if_neg hname.ne_here, if_neg hname.ne_up, node?_concat hhere]

/-- **Names that lead to a directory** lead there without following a link. -/
theorem follow_append (hfs : fs.Proper) (hdir : fs.node? (here ++ way) = some (.directory entries)) (links : Nat)
    (later : List String) :
    fs.follow links here (way ++ later) = fs.follow links (here ++ way) later := by
  induction way generalizing here with
  | nil => rw [List.append_nil, List.nil_append]
  | cons name way ih =>
      obtain ⟨siblings, hhere⟩ := exists_of_node?_append hdir (List.cons_ne_nil _ _)
      have hname : IsName name := (hfs.of_node? hdir).1 name (by simp)
      rw [List.append_cons] at hdir
      have further := ih hdir
      obtain ⟨child, hchild, hrest⟩ := Option.bind_eq_some_iff.1 (node?_append fs _ way ▸ hdir)
      -- An entry on the way to a directory is a directory itself.
      obtain ⟨inner, rfl⟩ : ∃ inner, child = .directory inner := by
        cases way with
        | nil => exact ⟨entries, Option.some.inj hrest⟩
        | cons next way =>
            obtain ⟨inner, -, rfl, -⟩ := FileNode.exists_of_at?_cons hrest
            exact ⟨inner, rfl⟩
      rw [node?_concat hhere] at hchild
      rw [List.cons_append, follow_cons hhere hname, hchild]
      simp only [further, List.append_assoc, List.singleton_append]

/-- An absolute path leads to the same from everywhere. -/
theorem locate_ofNames (fs : FileSystem) (base other : List String) (way : List String) :
    fs.locate base (Path.ofNames way) = fs.locate other (Path.ofNames way) := by
  rw [locate, locate, origin, origin, Path.isAbsolute_ofNames, if_pos rfl, if_pos rfl]

/-- **The path of a directory leads to the directory.** -/
theorem resolve_ofNames (hfs : fs.Proper) (hdir : fs.node? directory = some (.directory entries))
    (base : List String) : fs.resolve base (Path.ofNames directory) = .ok directory := by
  have located : fs.locate base (Path.ofNames directory) = .ok (.existing directory) := by
    rw [locate, if_neg Path.ofNames_ne_empty, origin, Path.isAbsolute_ofNames, if_pos rfl]
    by_cases hnil : directory = []
    · subst hnil
      rw [show steps (Path.ofNames []) = ["."] by decide, follow, hdir]
      simp [follow]
    · rw [steps_ofNames (hfs.of_node? hdir).1 hnil, ← List.append_nil directory,
        follow_append hfs (by simpa using hdir), follow, List.append_nil, List.nil_append]
  rw [resolve, located]

/-- A slash leads to the root directory. -/
theorem resolve_slash (hfs : fs.Proper) (hdir : fs.node? [] = some (.directory entries)) (base : List String) :
    fs.resolve base "/" = .ok [] :=
  resolve_ofNames hfs hdir base

/-- A name is a single step from the directory where one is. -/
theorem locate_of_isName (fs : FileSystem) (hname : IsName name) (directory : List String) :
    fs.locate directory name = fs.follow linkLimit directory [name] := by
  have relative : Path.isAbsolute name = false := by
    have hsingle : ∀ s ∈ [name], IsName s := by simpa using hname
    simpa [Path.joined] using Path.isAbsolute_joined hsingle
  rw [locate, if_neg hname.ne_empty, origin, relative, if_neg Bool.false_ne_true, steps_of_isName hname]

/-- A name leads to the file that has it. -/
theorem locate_of_file (hname : IsName name) {content : Bytes}
    (hfile : fs.node? (directory ++ [name]) = some (.file content)) :
    fs.locate directory name = .ok (.existing (directory ++ [name])) := by
  obtain ⟨entries, hdir⟩ := exists_of_node?_append hfile (List.cons_ne_nil _ _)
  rw [locate_of_isName fs hname, follow_cons hdir hname, ← node?_concat hdir, hfile]
  simp [follow]

/-- A name that no entry has leads to where an entry could be. -/
theorem locate_of_vacant (hdir : fs.node? directory = some (.directory entries)) (hname : IsName name)
    (hvacant : entries.lookup name = none) : fs.locate directory name = .ok (.vacant (directory ++ [name])) := by
  rw [locate_of_isName fs hname, follow_cons hdir hname, hvacant]
  rfl

/-- A link to a name in the same directory leads where that name leads, with one link less to follow. -/
theorem locate_of_link (hdir : fs.node? directory = some (.directory entries)) (hname : IsName name) {target : String}
    (hlink : entries.lookup name = some (.link target)) (htarget : IsName target) :
    fs.locate directory name = fs.follow (linkLimit - 1) directory [target] := by
  have relative : Path.isAbsolute target = false := by
    have hsingle : ∀ s ∈ [target], IsName s := by simpa using htarget
    simpa [Path.joined] using Path.isAbsolute_joined hsingle
  rw [locate_of_isName fs hname, follow_cons hdir hname, hlink]
  simp [linkLimit, origin, relative, steps_of_isName htarget]

/-- **What is looked for in a directory** is what its name leads to from there. -/
theorem locate_join (hfs : fs.Proper) (hdir : fs.node? directory = some (.directory entries))
    (hname : IsName name) (base : List String) :
    fs.locate base (Path.join (Path.ofNames directory) name) = fs.locate directory name := by
  have hnames := (hfs.of_node? hdir).1
  have hsingle : ∀ s ∈ [name], IsName s := by simpa using hname
  have joined : Path.join (Path.ofNames directory) name = Path.ofNames (directory ++ [name]) := by
    simpa [Path.joined] using Path.join_ofNames_joined hnames hsingle (by simp)
  rw [joined, locate, if_neg Path.ofNames_ne_empty, origin, Path.isAbsolute_ofNames, if_pos rfl,
    steps_ofNames (List.forall_mem_append.2 ⟨hnames, hsingle⟩) (by simp),
    follow_append hfs (by simpa using hdir), List.nil_append, locate_of_isName fs hname]

/-- **The path of a file leads to the file.** -/
theorem locate_ofNames_of_file (hfs : fs.Proper) {names : List String} {content : Bytes}
    (hfile : fs.node? names = some (.file content)) (hne : names ≠ []) (base : List String) :
    fs.locate base (Path.ofNames names) = .ok (.existing names) := by
  obtain ⟨outer, name, rfl⟩ := (List.eq_nil_or_concat names).resolve_left hne
  rw [List.concat_eq_append] at hfile ⊢
  obtain ⟨entries, hdir⟩ := exists_of_node?_append hfile (List.cons_ne_nil _ _)
  have hnames := (hfs.of_node? hfile).1
  rw [locate, if_neg Path.ofNames_ne_empty, origin, Path.isAbsolute_ofNames, if_pos rfl, steps_ofNames hnames (by simp),
    follow_append hfs (by simpa using hdir), List.nil_append, follow_cons hdir (hnames name (by simp)),
    ← node?_concat hdir, hfile]
  simp [follow]

/-! ### Reading -/

/-- A regular file in a directory is found there. -/
theorem isFile_join (hfs : fs.Proper) (hdir : fs.node? directory = some (.directory entries))
    (hname : IsName name) (base : List String) :
    fs.isFile base (Path.join (Path.ofNames directory) name) = fs.isFile directory name := by
  rw [isFile, isFile, find?, find?, resolve, resolve, locate_join hfs hdir hname]

/-- The content of a file in a directory is read there. -/
theorem read_join (hfs : fs.Proper) (hdir : fs.node? directory = some (.directory entries))
    (hname : IsName name) (base : List String) :
    fs.read base (Path.join (Path.ofNames directory) name) = fs.read directory name := by
  rw [read, read, resolve, resolve, locate_join hfs hdir hname]

/-- The content of a file is read at its absolute path from everywhere. -/
theorem read_ofNames (fs : FileSystem) (base other way : List String) :
    fs.read base (Path.ofNames way) = fs.read other (Path.ofNames way) := by
  rw [read, read, resolve, resolve, locate_ofNames fs base other]

/-- **A file is read at its path.** -/
theorem read_ofNames_of_file (hfs : fs.Proper) {names : List String} {content : Bytes}
    (hfile : fs.node? names = some (.file content)) (hne : names ≠ []) (base : List String) :
    fs.read base (Path.ofNames names) = .ok content := by
  simp only [read, resolve, locate_ofNames_of_file hfs hfile hne, hfile]

/-- What can be read is a regular file. -/
theorem isFile_of_read {path : String} {content : Bytes} (h : fs.read base path = .ok content) :
    fs.isFile base path = true := by
  rw [read] at h
  rw [isFile, find?]
  cases hplace : fs.resolve base path with
  | error e => simp [hplace] at h
  | ok place =>
      simp only [hplace] at h ⊢
      split at h <;> simp_all

/-- The path of a directory leads to a directory. -/
theorem isDirectory_ofNames (hfs : fs.Proper) (hdir : fs.node? directory = some (.directory entries))
    (base : List String) : fs.isDirectory base (Path.ofNames directory) = true := by
  rw [isDirectory, find?, resolve_ofNames hfs hdir]
  simp [hdir, FileNode.isDirectory]

/-- The path of a file leads to no directory. -/
theorem isDirectory_ofNames_of_file (hfs : fs.Proper) {names : List String} {content : Bytes}
    (hfile : fs.node? names = some (.file content)) (base : List String) :
    fs.isDirectory base (Path.ofNames names) = false := by
  by_cases hne : names = []
  · subst hne
    have steps_root : steps (Path.ofNames []) = ["."] := by decide
    rw [isDirectory, find?, resolve, locate, if_neg Path.ofNames_ne_empty, origin, Path.isAbsolute_ofNames, if_pos rfl,
      steps_root, follow, hfile]
    rfl
  · simp only [isDirectory, find?, resolve, locate_ofNames_of_file hfs hfile hne, hfile]
    rfl

/-- What lies below a directory is found at its path. -/
theorem entries_ofNames (hfs : fs.Proper) (hdir : fs.node? directory = some (.directory entries))
    (base : List String) : fs.entries base (Path.ofNames directory) = fs.trees directory entries := by
  rw [FileSystem.entries, resolve_ofNames hfs hdir]
  simp only [hdir]

/-- **Which entries of a directory lead to a regular file**: those that are one, and links to one. -/
theorem isFile_iff (hdir : fs.node? directory = some (.directory entries)) (hname : IsName name) :
    fs.isFile directory name = true ↔
      ∃ node, entries.lookup name = some node ∧
        (fs.tree directory name node = .file ∨ fs.tree directory name node = .other true) := by
  have followed := follow_cons hdir hname linkLimit []
  rw [← locate_of_isName fs hname] at followed
  cases hnode : entries.lookup name with
  | none =>
      rw [hnode] at followed
      simp [isFile, find?, resolve, followed]
  | some node =>
      rw [hnode] at followed
      have hplace := (node?_concat hdir name).trans hnode
      cases node with
      | file content => simp [isFile, find?, resolve, followed, follow, hplace, tree]
      | directory inner => simp [isFile, find?, resolve, followed, follow, hplace, tree]
      | link target => simp [tree]

/-- A file in a directory is read under its name. -/
theorem read_of_lookup (hdir : fs.node? directory = some (.directory entries)) (hname : IsName name)
    {content : Bytes} (h : entries.lookup name = some (.file content)) : fs.read directory name = .ok content := by
  have followed := follow_cons hdir hname linkLimit []
  rw [← locate_of_isName fs hname, h] at followed
  have hplace := (node?_concat hdir name).trans h
  simp [read, resolve, followed, follow, hplace]

end FileSystem

end SuiteReport
