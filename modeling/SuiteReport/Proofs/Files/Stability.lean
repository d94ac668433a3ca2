import SuiteReport.Proofs.Files.Writing
/-!
# Paths after a file has been written

A path leads after a file has been written where it led before: what is followed on the way are directories and
links, and there are the same of them. Only what lies at the end can have changed, and only for the paths that lead
to the place of the file. All other paths find the same directories and read the same files.

## Main definitions

* `Place.filled`: a place once there is a file at a given one.

## Main results

* `FileSystem.Written.toOption_follow`: where paths lead after a file has been written.
* `FileSystem.Written.toOption_read`: paths that lead to another place read the same.
* `FileSystem.Written.read_of_leadsTo`: paths that lead to the place read the file.
* `FileSystem.Written.write_eq_self`: to write the same file again changes nothing.
-/

namespace SuiteReport

/-- What is left of an outcome when its error is forgotten is what it holds. -/
theorem toOption_eq_some_iff {ε α : Type} {outcome : Except ε α} {a : α} :
    outcome.toOption = some a ↔ outcome = .ok a := by
  cases outcome <;> simp [Except.toOption]

/-- The place once there is a file at the given names. -/
def Place.filled (names : List String) : Place → Place
  | existing place => existing place
  | vacant place => if place = names then existing place else vacant place

theorem Place.names_filled (names : List String) (p : Place) : (p.filled names).names = p.names := by
  cases p with
  | existing place => rfl
  | vacant place =>
      rw [filled]
      split <;> rfl

namespace FileNode

variable {node old : FileNode} {entries : List (String × FileNode)} {content : Bytes} {target : String}

theorem exists_of_map_bare {found found' : Option FileNode} (h : found'.map bare = found.map bare)
    (hnode : found = some node) : ∃ node', found' = some node' ∧ node'.bare = node.bare := by
  rw [hnode] at h
  exact Option.map_eq_some_iff.1 h

theorem eq_file_of_bare (h : node.bare = (file content).bare) : node = file content := by
  cases node <;> simp_all [bare]

theorem eq_link_of_bare (h : node.bare = (link target).bare) : node = link target := by
  cases node <;> simp_all [bare]

theorem exists_of_bare (h : node.bare = (directory entries).bare) : ∃ inner, node = directory inner := by
  cases node <;> simp_all [bare]

end FileNode

namespace FileSystem

variable {fs fs' : FileSystem} {base here place other : List String} {path : String} {content : Bytes}
  {entries : List (String × FileNode)}

/-! ### Reading -/

/-- A path finds what lies where it leads. -/
theorem find?_eq (fs : FileSystem) (base : List String) (path : String) :
    fs.find? base path = (fs.resolve base path).toOption.bind fs.node? := by
  rw [find?]
  cases fs.resolve base path <;> rfl

/-- What is read is the content of the file that is found. -/
theorem toOption_read_eq (fs : FileSystem) (base : List String) (path : String) :
    (fs.read base path).toOption = (fs.find? base path).bind FileNode.content? := by
  rw [find?_eq, read]
  cases fs.resolve base path with
  | error e => rfl
  | ok names =>
      cases hnode : fs.node? names with
      | none => simp [Except.toOption, hnode]
      | some node => cases node <;> simp [Except.toOption, FileNode.content?, hnode]

/-- A path leads to a regular file exactly if the file can be read. -/
theorem isFile_eq_isSome (fs : FileSystem) (base : List String) (path : String) :
    fs.isFile base path = (fs.read base path).toOption.isSome := by
  rw [toOption_read_eq, isFile]
  cases fs.find? base path with
  | none => rfl
  | some node => cases node <;> rfl

/-- A path leads to a directory exactly if a directory is what it is resolved to. -/
theorem isDirectory_iff : fs.isDirectory base path = true ↔
    ∃ names entries, fs.resolve base path = .ok names ∧ fs.node? names = some (.directory entries) := by
  rw [isDirectory, find?_eq]
  cases fs.resolve base path with
  | error e => simp [Except.toOption]
  | ok names =>
      cases hnode : fs.node? names with
      | none => simp [Except.toOption, hnode]
      | some node => cases node <;> simp [Except.toOption, hnode, FileNode.isDirectory]

/-- A path leads to what it is resolved to. -/
theorem leadsTo_of_resolve (hpath : fs.resolve base path = .ok place) : fs.LeadsTo base path place := by
  rw [resolve] at hpath
  cases hp : fs.locate base path with
  | error e => rw [hp] at hpath; cases hpath
  | ok p =>
      rw [hp] at hpath
      cases p with
      | vacant names => cases hpath
      | existing names => exact ⟨_, hp, Except.ok.inj hpath⟩

/-- A name leads somewhere from a directory only. -/
theorem exists_directory_of_leadsTo {name : String} (hname : Path.IsName name) (h : fs.LeadsTo here name place) :
    ∃ entries, fs.node? here = some (.directory entries) := by
  obtain ⟨p, hp, -⟩ := h
  by_contra hne
  push Not at hne
  rw [locate_of_isName fs hname, follow_of_ne hne] at hp
  cases hp

/-! ### What paths are resolved to -/

/-- Above a directory there is a directory; above that of the root there is itself. -/
theorem exists_node?_dropLast (hdir : fs.node? here = some (.directory entries)) :
    ∃ outer, fs.node? here.dropLast = some (.directory outer) := by
  rcases List.eq_nil_or_concat here with rfl | ⟨outer, name, rfl⟩
  · exact ⟨entries, hdir⟩
  · rw [List.concat_eq_append] at hdir ⊢
    rw [List.dropLast_concat]
    exact exists_of_node?_append hdir (List.cons_ne_nil _ _)

/-- What is found at the end of some steps exists and is no link, provided that this holds of where they begin.
The induction is along the way. -/
theorem exists_node?_of_follow {links : Nat} {remaining : List String}
    (hhere : remaining = [] → ∃ node, fs.node? here = some node ∧ ∀ target, node ≠ .link target)
    (h : fs.follow links here remaining = .ok (.existing place)) :
    ∃ node, fs.node? place = some node ∧ ∀ target, node ≠ .link target := by
  replace h := follows_of_follow h
  generalize hp : Place.existing place = p at h
  induction h with
  | arrived =>
      obtain rfl := Place.existing.inj hp
      exact hhere rfl
  | stay hdir _ ih => exact ih (fun _ => ⟨_, hdir, by simp⟩) hp
  | up hdir _ ih =>
      obtain ⟨outer, houter⟩ := exists_node?_dropLast hdir
      exact ih (fun _ => ⟨_, houter, by simp⟩) hp
  | vacant => cases hp
  | link _ _ _ ih => exact ih (fun hnil => absurd (List.append_eq_nil_iff.1 hnil).1 (steps_ne_nil _)) hp
  | enter _ hnode hlink _ ih => exact ih (fun _ => ⟨_, hnode, hlink⟩) hp

/-- What a path is resolved to exists and is no link. -/
theorem exists_node?_of_resolve (hpath : fs.resolve base path = .ok place) :
    ∃ node, fs.node? place = some node ∧ ∀ target, node ≠ .link target := by
  obtain ⟨p, hp, -⟩ := leadsTo_of_resolve hpath
  rw [resolve, hp] at hpath
  cases p with
  | vacant names => cases hpath
  | existing names =>
      obtain rfl := Except.ok.inj hpath
      rw [locate] at hp
      split at hp
      · cases hp
      · exact exists_node?_of_follow (fun hnil => absurd hnil (steps_ne_nil path)) hp

/-- Names that a path is resolved to lead to a directory if their own path does. -/
theorem exists_node?_of_isDirectory (hfs : fs.Proper) (hpath : fs.resolve base path = .ok place)
    (h : fs.isDirectory base (Path.ofNames place) = true) : ∃ entries, fs.node? place = some (.directory entries) := by
  obtain ⟨node, hnode, hlink⟩ := exists_node?_of_resolve hpath
  cases node with
  | directory entries => exact ⟨entries, hnode⟩
  | link target => exact absurd rfl (hlink target)
  | file content =>
      rw [isDirectory_ofNames_of_file hfs hnode] at h
      cases h

namespace Written

variable (h : fs.Written place content fs')

include h

/-- Directories are directories after a file has been written. -/
theorem exists_directory (hdir : fs.node? other = some (.directory entries)) :
    ∃ inner, fs'.node? other = some (.directory inner) := by
  have hne : other ≠ place := by
    rintro rfl
    obtain ⟨old, hold⟩ := h.before _ hdir
    cases hold
  obtain ⟨node, hnode, hbare⟩ := FileNode.exists_of_map_bare (h.elsewhere other hne) hdir
  obtain ⟨inner, rfl⟩ := FileNode.exists_of_bare hbare
  exact ⟨inner, hnode⟩

/-- Directories have been directories before a file was written. -/
theorem exists_directory_before (hdir : fs'.node? other = some (.directory entries)) :
    ∃ outer, fs.node? other = some (.directory outer) := by
  have hne : other ≠ place := by
    rintro rfl
    rw [h.after] at hdir
    cases hdir
  obtain ⟨node, hnode, hbare⟩ := FileNode.exists_of_map_bare (h.elsewhere other hne).symm hdir
  obtain ⟨inner, rfl⟩ := FileNode.exists_of_bare hbare
  exact ⟨inner, hnode⟩

/-- Links are the same after a file has been written. -/
theorem node?_link {target : String} (hlink : fs.node? other = some (.link target)) :
    fs'.node? other = some (.link target) := by
  have hne : other ≠ place := by
    rintro rfl
    obtain ⟨old, hold⟩ := h.before _ hlink
    cases hold
  obtain ⟨node, hnode, hbare⟩ := FileNode.exists_of_map_bare (h.elsewhere other hne) hlink
  rw [hnode, FileNode.eq_link_of_bare hbare]

/-- Where there was no link, there is none after a file has been written. -/
theorem exists_node? {node : FileNode} (hnode : fs.node? other = some node) (hlink : ∀ target, node ≠ .link target) :
    ∃ node', fs'.node? other = some node' ∧ ∀ target, node' ≠ .link target := by
  by_cases hplace : other = place
  · subst hplace
    exact ⟨_, h.after, fun target heq => by cases heq⟩
  · obtain ⟨node', hnode', hbare⟩ := FileNode.exists_of_map_bare (h.elsewhere other hplace) hnode
    exact ⟨node', hnode', fun target heq => hlink target (FileNode.eq_link_of_bare (heq ▸ hbare.symm))⟩

/-- Where there was nothing, there is the file or still nothing. -/
theorem node?_of_none (hnone : fs.node? other = none) :
    fs'.node? other = if other = place then some (.file content) else none := by
  by_cases hplace : other = place
  · rw [if_pos hplace, hplace, h.after]
  · rw [if_neg hplace]
    have same := h.elsewhere other hplace
    rw [hnone] at same
    exact Option.map_eq_none_iff.1 same

/-- **Where paths lead after a file has been written**: to where they led before. The induction is along the way. -/
theorem toOption_follow (links : Nat) (here remaining : List String) :
    (fs'.follow links here remaining).toOption =
      (fs.follow links here remaining).toOption.map (Place.filled place) := by
  induction links, here, remaining using FileSystem.follow.induct fs with
  | case1 links here => simp [follow, Except.toOption, Place.filled]
  | case2 links here later entries hhere ih =>
      obtain ⟨inner, hhere'⟩ := h.exists_directory hhere
      rw [follow_step hhere, follow_step hhere', if_pos rfl, if_pos rfl, ih]
  | case3 links here later entries hhere hstep ih =>
      obtain ⟨inner, hhere'⟩ := h.exists_directory hhere
      rw [follow_step hhere, follow_step hhere', if_neg hstep, if_neg hstep, if_pos rfl, if_pos rfl, ih]
  | case4 links here step later entries hhere hstep hup hlookup hlater =>
      obtain ⟨inner, hhere'⟩ := h.exists_directory hhere
      rw [← node?_concat hhere] at hlookup
      obtain rfl := List.isEmpty_iff.1 hlater
      rw [follow_step_of_none hhere hstep hup hlookup, if_pos hlater]
      have behind := h.node?_of_none hlookup
      by_cases hplace : here ++ [step] = place
      · rw [if_pos hplace] at behind
        rw [follow_step_of_node hhere' hstep hup behind (by simp), follow]
        simp [Except.toOption, Place.filled, hplace]
      · rw [if_neg hplace] at behind
        rw [follow_step_of_none hhere' hstep hup behind, if_pos hlater]
        simp [Except.toOption, Place.filled, hplace]
  | case5 links here step later entries hhere hstep hup hlookup hlater =>
      obtain ⟨inner, hhere'⟩ := h.exists_directory hhere
      rw [← node?_concat hhere] at hlookup
      rw [follow_step_of_none hhere hstep hup hlookup, if_neg hlater]
      have behind := h.node?_of_none hlookup
      by_cases hplace : here ++ [step] = place
      · -- The file is no directory to go on from.
        rw [if_pos hplace] at behind
        obtain ⟨next, later, rfl⟩ := List.exists_cons_of_ne_nil (mt List.isEmpty_iff.2 hlater)
        rw [follow_step_of_node hhere' hstep hup behind (by simp), follow_of_ne (by simp [behind])]
        rfl
      · rw [if_neg hplace] at behind
        rw [follow_step_of_none hhere' hstep hup behind, if_neg hlater]
        rfl
  | case6 here step later entries hhere hstep hup target hlookup =>
      obtain ⟨inner, hhere'⟩ := h.exists_directory hhere
      rw [← node?_concat hhere] at hlookup
      rw [follow_step_of_link hhere hstep hup hlookup, follow_step_of_link hhere' hstep hup (h.node?_link hlookup)]
      rfl
  | case7 here step later entries hhere hstep hup target hlookup links ih =>
      obtain ⟨inner, hhere'⟩ := h.exists_directory hhere
      rw [← node?_concat hhere] at hlookup
      rw [follow_step_of_link hhere hstep hup hlookup, follow_step_of_link hhere' hstep hup (h.node?_link hlookup)]
      exact ih
  | case8 links here step later entries hhere hstep hup node hlink hlookup ih =>
      obtain ⟨inner, hhere'⟩ := h.exists_directory hhere
      rw [← node?_concat hhere] at hlookup
      obtain ⟨node', hnode', hlink'⟩ := h.exists_node? hlookup hlink
      rw [follow_step_of_node hhere hstep hup hlookup hlink, follow_step_of_node hhere' hstep hup hnode' hlink', ih]
  | case9 links here step later hhere =>
      have hhere' : ∀ entries, fs'.node? here ≠ some (.directory entries) := by
        intro entries hdir
        obtain ⟨outer, houter⟩ := h.exists_directory_before hdir
        exact hhere outer houter
      rw [follow_of_ne hhere, follow_of_ne hhere']
      rfl

/-- Where a path leads after a file has been written. -/
theorem toOption_locate (base : List String) (path : String) :
    (fs'.locate base path).toOption = (fs.locate base path).toOption.map (Place.filled place) := by
  rw [locate, locate]
  split
  · rfl
  · exact h.toOption_follow _ _ _

/-- A path that led to a place leads there. -/
theorem locate_of_locate {p : Place} (hp : fs.locate base path = .ok p) :
    fs'.locate base path = .ok (p.filled place) := by
  rw [← toOption_eq_some_iff, h.toOption_locate, toOption_eq_some_iff.2 hp, Option.map_some]

/-- A path that led nowhere leads nowhere. -/
theorem exists_locate_eq_error {e : FileError} (hp : fs.locate base path = .error e) :
    ∃ e', fs'.locate base path = .error e' := by
  have located := h.toOption_locate base path
  rw [hp] at located
  cases hp' : fs'.locate base path with
  | error e' => exact ⟨e', rfl⟩
  | ok p' => rw [hp'] at located; cases located

/-- What a path led to is what it leads to. -/
theorem resolve_of_resolve (hpath : fs.resolve base path = .ok other) : fs'.resolve base path = .ok other := by
  rw [resolve] at hpath ⊢
  cases hp : fs.locate base path with
  | error e => rw [hp] at hpath; cases hpath
  | ok p =>
      rw [hp] at hpath
      cases p with
      | vacant names => cases hpath
      | existing names =>
          obtain rfl := Except.ok.inj hpath
          rw [h.locate_of_locate hp]
          rfl

/-- A path leads to what it led to, unless it leads to the place of the file. -/
theorem toOption_resolve (hpath : ¬ fs.LeadsTo base path place) :
    (fs'.resolve base path).toOption = (fs.resolve base path).toOption := by
  rw [resolve, resolve]
  cases hp : fs.locate base path with
  | error e =>
      obtain ⟨e', hp'⟩ := h.exists_locate_eq_error hp
      rw [hp']
      rfl
  | ok p =>
      rw [h.locate_of_locate hp]
      cases p with
      | existing names => rfl
      | vacant names =>
          have hne : names ≠ place := fun heq => hpath ⟨_, hp, heq⟩
          rw [Place.filled, if_neg hne]

/-! ### Finding and reading -/

/-- What a path finds does not change, unless the path leads to the place of the file. -/
theorem map_bare_find? (hpath : ¬ fs.LeadsTo base path place) :
    (fs'.find? base path).map FileNode.bare = (fs.find? base path).map FileNode.bare := by
  rw [find?_eq, find?_eq, h.toOption_resolve hpath]
  cases hplace : fs.resolve base path with
  | error e => rfl
  | ok names => exact h.elsewhere names fun heq => hpath (leadsTo_of_resolve (heq ▸ hplace))

/-- **The same content is read**, unless the path leads to the place of the file. -/
theorem toOption_read (hpath : ¬ fs.LeadsTo base path place) :
    (fs'.read base path).toOption = (fs.read base path).toOption := by
  have content (found : Option FileNode) : found.bind FileNode.content? =
      (found.map FileNode.bare).bind FileNode.content? := by
    cases found <;> simp [FileNode.content?_bare]
  rw [toOption_read_eq, toOption_read_eq, content, h.map_bare_find? hpath, ← content]

/-- What could be read can be read, unless the path leads to the place of the file. -/
theorem read_of_read (hpath : ¬ fs.LeadsTo base path place) {old : Bytes} (hread : fs.read base path = .ok old) :
    fs'.read base path = .ok old := by
  rw [← toOption_eq_some_iff, h.toOption_read hpath, toOption_eq_some_iff.2 hread]

/-- The same paths lead to regular files, apart from those that lead to the place of the file. -/
theorem isFile_eq (hpath : ¬ fs.LeadsTo base path place) : fs'.isFile base path = fs.isFile base path := by
  rw [isFile_eq_isSome, isFile_eq_isSome, h.toOption_read hpath]

/-- What a path leads to elsewhere is what it led to. -/
theorem resolve_before (hpath : fs'.resolve base path = .ok other) (hne : other ≠ place) :
    fs.resolve base path = .ok other := by
  have hother : ¬ fs.LeadsTo base path place := by
    rintro ⟨p, hp, rfl⟩
    obtain ⟨p', hp', rfl⟩ := leadsTo_of_resolve hpath
    obtain rfl := Except.ok.inj (hp'.symm.trans (h.locate_of_locate hp))
    exact hne (Place.names_filled _ p)
  rw [← toOption_eq_some_iff, ← h.toOption_resolve hother, toOption_eq_some_iff.2 hpath]

/-- The same paths lead to directories. -/
theorem isDirectory_eq (base : List String) (path : String) :
    fs'.isDirectory base path = fs.isDirectory base path := by
  rw [Bool.eq_iff_iff, isDirectory_iff, isDirectory_iff]
  constructor
  · rintro ⟨names, entries, hpath, hdir⟩
    have hne : names ≠ place := by
      rintro rfl
      rw [h.after] at hdir
      cases hdir
    obtain ⟨inner, hdir⟩ := h.exists_directory_before hdir
    exact ⟨names, inner, h.resolve_before hpath hne, hdir⟩
  · rintro ⟨names, entries, hpath, hdir⟩
    obtain ⟨inner, hdir⟩ := h.exists_directory hdir
    exact ⟨names, inner, h.resolve_of_resolve hpath, hdir⟩

/-- The paths that led to the place of the file lead to the file. -/
theorem locate_of_leadsTo (hpath : fs.LeadsTo base path place) : fs'.locate base path = .ok (.existing place) := by
  obtain ⟨p, hp, rfl⟩ := hpath
  rw [h.locate_of_locate hp]
  cases p with
  | existing names => rfl
  | vacant names =>
      have same : (Place.vacant names).names = names := rfl
      rw [Place.filled, same, if_pos rfl]

/-- **The file is read** by the paths that lead to its place. -/
theorem read_of_leadsTo (hpath : fs.LeadsTo base path place) : fs'.read base path = .ok content := by
  simp only [read, resolve, h.locate_of_leadsTo hpath, h.after]

end Written

/-- **To write the same file again changes nothing.** -/
theorem write_eq_self (hwrite : fs.write base path content = .ok fs') : fs'.write base path content = .ok fs' := by
  obtain ⟨place, hpath, -, h, -⟩ := exists_of_write hwrite
  obtain ⟨p, hp⟩ := exists_locateForWriting_of_write hwrite
  have located : fs'.locateForWriting base path = .ok (.existing place) :=
    locateForWriting_eq_ok_iff.2 ⟨(locateForWriting_eq_ok_iff.1 hp).1, h.locate_of_leadsTo hpath⟩
  have same : fs'.put place (.file content) = fs' := congrArg FileSystem.mk (FileNode.put_eq_self h.after)
  simp only [write, located, h.after, same]

end FileSystem

end SuiteReport
