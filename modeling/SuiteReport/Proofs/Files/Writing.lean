import SuiteReport.Proofs.Files.Resolution
/-!
# Writing a file

A file is written where its path leads once all links are followed: in place of the regular file there, or as a new
entry of its directory. What lies at any other place stays as it is; of the directories above the file that means
that they are still directories.

## Main definitions

* `FileNode.bare`: a node apart from what lies in it.
* `FileSystem.LeadsTo`: to which place a path leads.
* `FileSystem.Written`: a file has been written at a place, and nothing else has changed.

## Main results

* `FileNode.bare_at?_put`: what a file put at a place leaves alone.
* `FileSystem.follow_eq_vacant`: where a new file is put.
* `FileSystem.exists_of_write`: what writing a file does.
-/

namespace SuiteReport

open SuiteReport.Path (IsName)

namespace FileNode

variable {entries : List (String × FileNode)} {name : String} {names outer : List String}
  {node new old : FileNode} {content : Bytes}

/-- The node apart from what lies in it: of a directory it remains that it is one. -/
def bare : FileNode → FileNode
  | directory _ => directory []
  | node => node

/-- The content of a regular file. -/
def content? : FileNode → Option Bytes
  | file content => some content
  | _ => none

theorem content?_bare (node : FileNode) : node.bare.content? = node.content? := by
  cases node <;> rfl

/-! ### Entries -/

/-- After an entry has been set, it is found under its name and the other entries under theirs. -/
theorem lookup_setEntry (name other : String) (new : FileNode) (entries : List (String × FileNode)) :
    (setEntry name new entries).lookup other = if other = name then some new else entries.lookup other := by
  induction entries with
  | nil =>
      rw [setEntry, List.lookup_cons]
      by_cases h : other = name
      · simp [h]
      · have hne : (other == name) = false := by simpa using h
        simp [h, hne]
  | cons e later ih =>
      obtain ⟨k, node⟩ := e
      rw [setEntry]
      by_cases hk : k = name
      · by_cases h : other = name
        · simp [hk, h]
        · have hne : (other == name) = false := by simpa using h
          simp [hk, h, hne, List.lookup_cons]
      · rw [if_neg hk, List.lookup_cons, List.lookup_cons, ih]
        by_cases h : other = name
        · have hne : (name == k) = false := by simpa using Ne.symm hk
          simp [h, hne]
        · simp [h]

/-- To set an entry to what it is changes nothing. -/
theorem setEntry_eq_self (h : entries.lookup name = some node) : setEntry name node entries = entries := by
  induction entries with
  | nil => simp at h
  | cons e later ih =>
      obtain ⟨k, old⟩ := e
      rw [setEntry]
      by_cases hk : k = name
      · subst hk
        rw [List.lookup_cons_self] at h
        rw [if_pos rfl, Option.some.inj h]
      · have hne : (name == k) = false := by simpa using Ne.symm hk
        rw [List.lookup_cons, hne] at h
        rw [if_neg hk, ih h]

/-- Setting an entry adds no name but the one of the entry. -/
theorem mem_setEntry {e : String × FileNode} (h : e ∈ setEntry name new entries) : e = (name, new) ∨ e ∈ entries := by
  induction entries with
  | nil => exact .inl (List.mem_singleton.1 h)
  | cons first later ih =>
      obtain ⟨k, old⟩ := first
      rw [setEntry] at h
      by_cases hk : k = name
      · subst hk
        rw [if_pos rfl] at h
        rcases List.mem_cons.1 h with rfl | h
        · exact .inl rfl
        · exact .inr (List.mem_cons_of_mem _ h)
      · rw [if_neg hk] at h
        rcases List.mem_cons.1 h with rfl | h
        · exact .inr List.mem_cons_self
        · exact (ih h).imp_right (List.mem_cons_of_mem _)

/-- Setting an entry keeps names distinct. -/
theorem nodup_setEntry (h : (entries.map Prod.fst).Nodup) (name : String) (new : FileNode) :
    ((setEntry name new entries).map Prod.fst).Nodup := by
  induction entries with
  | nil => simp [setEntry]
  | cons first later ih =>
      obtain ⟨k, old⟩ := first
      rw [setEntry]
      rw [List.map_cons, List.nodup_cons] at h
      by_cases hk : k = name
      · rwa [if_pos hk, List.map_cons, List.nodup_cons]
      · rw [if_neg hk, List.map_cons, List.nodup_cons]
        refine ⟨fun hmem => ?_, ih h.2⟩
        obtain ⟨e, he, hek⟩ := List.mem_map.1 hmem
        rcases mem_setEntry he with rfl | he
        · exact hk hek.symm
        · exact h.1 (List.mem_map.2 ⟨e, he, hek⟩)

/-! ### Putting a node at the end of some names -/

/-- A node is put behind a first name by putting it into the entry of that name. -/
theorem put_cons (hne : names ≠ []) (entries : List (String × FileNode)) (name : String) (new : FileNode) :
    put new (name :: names) (directory entries) =
      ((entries.lookup name).map fun child => directory (setEntry name (put new names child) entries)).getD
        (directory entries) := by
  obtain ⟨next, later, rfl⟩ := List.exists_cons_of_ne_nil hne
  rw [put.eq_def new (name :: next :: later)]
  dsimp only
  cases entries.lookup name <;> rfl

/-- **What is put into a directory is there.** -/
theorem at?_put (h : at? outer node = some (directory entries)) (name : String) (new : FileNode) :
    at? (outer ++ [name]) (put new (outer ++ [name]) node) = some new := by
  induction outer generalizing node with
  | nil =>
      obtain rfl := Option.some.inj h
      simp [put, at?, entry?, lookup_setEntry]
  | cons first later ih =>
      obtain ⟨siblings, next, rfl, hnext, hat⟩ := exists_of_at?_cons h
      rw [List.cons_append, put_cons (by simp), hnext]
      simp [at?, entry?, lookup_setEntry, ih hat]

/-- To put a node where it is changes nothing. -/
theorem put_eq_self (h : at? names node = some old) : put old names node = node := by
  induction names generalizing node with
  | nil => exact (Option.some.inj h).symm
  | cons name names ih =>
      obtain ⟨entries, next, rfl, hnext, hat⟩ := exists_of_at?_cons h
      by_cases hnil : names = []
      · subst hnil
        obtain rfl := Option.some.inj hat
        rw [put, setEntry_eq_self hnext]
      · rw [put_cons hnil, hnext, Option.map_some, Option.getD_some, ih hat, setEntry_eq_self hnext]

/-- In a directory the first name is looked up. -/
theorem at?_cons (name : String) (names : List String) (entries : List (String × FileNode)) :
    at? (name :: names) (directory entries) = (entries.lookup name).bind (at? names) :=
  rfl

/-- Once an entry has been set, names that begin with its name lead into it. -/
theorem at?_setEntry (name other : String) (others : List String) (new : FileNode)
    (entries : List (String × FileNode)) :
    at? (other :: others) (directory (setEntry name new entries)) =
      if other = name then at? others new else at? (other :: others) (directory entries) := by
  rw [at?_cons, at?_cons, lookup_setEntry]
  split <;> rfl

/-- Nothing lies below a file. -/
theorem at?_file (hne : names ≠ []) (content : Bytes) : at? names (.file content) = none := by
  obtain ⟨name, later, rfl⟩ := List.exists_cons_of_ne_nil hne
  rfl

/-- **A file that is put at a place leaves all else alone**, provided that there was a file before, or nothing. -/
theorem bare_at?_put (h : ∀ old, at? names node = some old → ∃ content, old = .file content) (content : Bytes)
    {others : List String} (hne : others ≠ names) :
    (at? others (put (.file content) names node)).map bare = (at? others node).map bare := by
  induction names generalizing node others with
  | nil =>
      obtain ⟨old, rfl⟩ := h node rfl
      rw [put, at?_file hne, at?_file hne]
  | cons name names ih =>
      cases node with
      | file _ => rw [put] <;> simp
      | link _ => rw [put] <;> simp
      | directory entries =>
          rw [at?_cons] at h
          cases others with
          | nil =>
              by_cases hnil : names = []
              · subst hnil
                rfl
              · rw [put_cons hnil]
                cases entries.lookup name <;> rfl
          | cons other others =>
              have inside (heq : other = name) : others ≠ names := fun hothers => hne (by rw [heq, hothers])
              by_cases hnil : names = []
              · subst hnil
                rw [put, at?_setEntry]
                by_cases hother : other = name
                · -- Nothing lies below the file, and nothing did before.
                  rw [if_pos hother, at?_file (inside hother), at?_cons, hother]
                  cases hold : entries.lookup name with
                  | none => rfl
                  | some old =>
                      obtain ⟨content, rfl⟩ := h old (by rw [hold]; rfl)
                      rw [Option.bind_some, at?_file (inside hother)]
                · rw [if_neg hother]
              · rw [put_cons hnil]
                cases hchild : entries.lookup name with
                | none => rfl
                | some child =>
                    rw [hchild, Option.bind_some] at h
                    rw [Option.map_some, Option.getD_some, at?_setEntry]
                    by_cases hother : other = name
                    · rw [if_pos hother, at?_cons, hother, hchild, Option.bind_some]
                      exact ih h (inside hother)
                    · rw [if_neg hother]

/-- What is put into a proper directory under a name keeps everything proper. -/
theorem Proper.put (h : node.Proper) (hat : at? outer node = some (.directory entries)) (hname : IsName name)
    (hnew : new.Proper) : (FileNode.put new (outer ++ [name]) node).Proper := by
  have set {siblings : List (String × FileNode)} {first : String} {child : FileNode}
      (hproper : (FileNode.directory siblings).Proper) (hfirst : IsName first) (hchild : child.Proper) :
      (FileNode.directory (setEntry first child siblings)).Proper := by
    rw [proper_directory_iff] at hproper ⊢
    refine ⟨nodup_setEntry hproper.1 first child, fun e he => ?_⟩
    rcases mem_setEntry he with rfl | he
    · exact ⟨hfirst, hchild⟩
    · exact hproper.2 e he
  induction outer generalizing node with
  | nil =>
      obtain rfl := Option.some.inj hat
      exact set h hname hnew
  | cons first later ih =>
      obtain ⟨siblings, next, rfl, hnext, hat⟩ := exists_of_at?_cons hat
      obtain ⟨hfirst, hproper⟩ := h.of_lookup hnext
      rw [List.cons_append, put_cons (by simp), hnext]
      exact set h hfirst (ih hproper hat)

end FileNode

/-- The names that a place is told by. -/
def Place.names : Place → List String
  | existing names | vacant names => names

namespace FileSystem

variable {fs fs' : FileSystem} {base here remaining place names outer : List String} {links : Nat} {path name : String}
  {content : Bytes} {entries : List (String × FileNode)}

/-- Whether a path leads to a place, where something may lie or not. -/
def LeadsTo (fs : FileSystem) (base : List String) (path : String) (place : List String) : Prop :=
  ∃ p, fs.locate base path = .ok p ∧ p.names = place

/-- A path leads to one place. -/
theorem LeadsTo.unique {other : List String} (h : fs.LeadsTo base path place) (h' : fs.LeadsTo base path other) :
    place = other := by
  obtain ⟨p, hp, rfl⟩ := h
  obtain ⟨p', hp', rfl⟩ := h'
  rw [Except.ok.inj (hp.symm.trans hp')]

/-- A regular file with the content has been written at a place, and nothing else has changed. -/
structure Written (fs : FileSystem) (place : List String) (content : Bytes) (fs' : FileSystem) : Prop where
  /-- There was a regular file at the place before, or nothing. -/
  before : ∀ node, fs.node? place = some node → ∃ old, node = .file old
  /-- The file is there now. -/
  after : fs'.node? place = some (.file content)
  /-- Everywhere else lies what lay there. -/
  elsewhere : ∀ other, other ≠ place → (fs'.node? other).map FileNode.bare = (fs.node? other).map FileNode.bare

/-! ### Steps -/

/-- A path is followed through segments that are not empty. -/
theorem of_mem_steps {s : String} (h : s ∈ steps path) : s ≠ "" ∧ Path.separator ∉ s.toList := by
  rw [steps] at h
  rcases List.mem_append.1 h with h | h
  · obtain ⟨hmem, hne⟩ := List.mem_filter.1 h
    obtain ⟨part, hpart, rfl⟩ := List.mem_map.1 hmem
    rw [String.toList_ofList]
    exact ⟨by simpa using hne, notMem_of_mem_splitOn hpart⟩
  · split at h
    · obtain rfl := List.mem_singleton.1 h
      decide
    · simp at h

/-- There is always something to follow. -/
theorem steps_ne_nil (path : String) : steps path ≠ [] := by
  intro h
  obtain ⟨hsegments, hlast⟩ := List.append_eq_nil_iff.1 h
  have hne : Path.segments path ≠ [] := by
    rw [Path.segments, splitOn_eq]
    simp
  have hempty : (Path.segments path).getLast? = some "" := by
    rw [List.getLast?_eq_some_getLast hne]
    simpa using List.filter_eq_nil_iff.1 hsegments _ (List.getLast_mem hne)
  simp [hempty] at hlast

/-- **Where a new file is put**: into a directory, under a name that it does not have yet. The induction is along the
way. -/
theorem follow_eq_vacant (hsteps : ∀ s ∈ remaining, s ≠ "" ∧ Path.separator ∉ s.toList)
    (h : fs.follow links here remaining = .ok (.vacant place)) :
    ∃ outer entries name, place = outer ++ [name] ∧ IsName name ∧ fs.node? outer = some (.directory entries) ∧
      entries.lookup name = none := by
  replace h := follows_of_follow h
  generalize hp : Place.vacant place = p at h
  induction h with
  | arrived => cases hp
  | stay _ _ ih => exact ih (List.forall_mem_cons.1 hsteps).2 hp
  | up _ _ ih => exact ih (List.forall_mem_cons.1 hsteps).2 hp
  | @vacant here step entries hhere hstep hvacant =>
      obtain rfl : place = here ++ [step] := by simpa using hp
      obtain ⟨hne, hslash⟩ := (List.forall_mem_cons.1 hsteps).1
      rw [node?_concat hhere] at hvacant
      exact ⟨here, entries, step, rfl, ⟨hne, hslash, hstep.1, hstep.2⟩, hhere, hvacant⟩
  | link _ _ _ ih =>
      exact ih (List.forall_mem_append.2 ⟨fun s hs => of_mem_steps hs, (List.forall_mem_cons.1 hsteps).2⟩) hp
  | enter _ _ _ _ ih => exact ih (List.forall_mem_cons.1 hsteps).2 hp

/-! ### Writing -/

/-- A file that is put at a place is written there, provided that there was a file before, or nothing, in a
directory. -/
theorem written_put (hbefore : ∀ node, fs.node? place = some node → ∃ old, node = .file old)
    (hplace : place = [] ∨ ∃ outer entries name, place = outer ++ [name] ∧ fs.node? outer = some (.directory entries))
    (content : Bytes) : fs.Written place content (fs.put place (.file content)) where
  before := hbefore
  after := by
    rcases hplace with rfl | ⟨outer, entries, name, rfl, hdir⟩
    · rfl
    · exact FileNode.at?_put hdir name _
  elsewhere other hne := FileNode.bare_at?_put hbefore content hne

/-- A regular file can be replaced. -/
theorem written_put_of_file {old : Bytes} (h : fs.node? place = some (.file old)) (content : Bytes) :
    fs.Written place content (fs.put place (.file content)) := by
  refine written_put (fun node hnode => ⟨old, Option.some.inj (hnode.symm.trans h)⟩) ?_ content
  rcases List.eq_nil_or_concat place with rfl | ⟨outer, name, rfl⟩
  · exact .inl rfl
  · rw [List.concat_eq_append] at h ⊢
    obtain ⟨entries, hdir⟩ := exists_of_node?_append h (List.cons_ne_nil _ _)
    exact .inr ⟨outer, entries, name, rfl, hdir⟩

/-- A regular file can be added to a directory. -/
theorem written_put_of_vacant (hdir : fs.node? outer = some (.directory entries)) (hname : entries.lookup name = none)
    (content : Bytes) : fs.Written (outer ++ [name]) content (fs.put (outer ++ [name]) (.file content)) := by
  refine written_put (fun node hnode => ?_) (.inr ⟨outer, entries, name, rfl, hdir⟩) content
  rw [node?_concat hdir, hname] at hnode
  cases hnode

/-- Replacing a regular file keeps a file system proper. -/
theorem Proper.put_of_file (hfs : fs.Proper) {old : Bytes} (h : fs.node? place = some (.file old)) (content : Bytes) :
    (fs.put place (.file content)).Proper := by
  rcases List.eq_nil_or_concat place with rfl | ⟨outer, name, rfl⟩
  · exact .file content
  · rw [List.concat_eq_append] at h ⊢
    obtain ⟨entries, hdir⟩ := exists_of_node?_append h (List.cons_ne_nil _ _)
    exact FileNode.Proper.put hfs hdir ((hfs.of_node? h).1 name (by simp)) (.file content)

/-- Adding a regular file to a directory keeps a file system proper. -/
theorem Proper.put_of_vacant (hfs : fs.Proper) (hdir : fs.node? outer = some (.directory entries))
    (hname : IsName name) (content : Bytes) : (fs.put (outer ++ [name]) (.file content)).Proper :=
  FileNode.Proper.put hfs hdir hname (.file content)

/-- A file is written where its path leads, if the path does not end in a slash. -/
theorem locateForWriting_eq_ok_iff {p : Place} : fs.locateForWriting base path = .ok p ↔
    path.toList.getLast? ≠ some Path.separator ∧ fs.locate base path = .ok p := by
  rw [locateForWriting]
  by_cases hlast : path.toList.getLast? = some Path.separator
  · rw [if_pos hlast]
    refine iff_of_false (fun h => ?_) (fun h => h.1 hlast)
    split at h
    · cases h
    · cases h
    · split at h <;> cases h
  · rw [if_neg hlast]
    exact (and_iff_right hlast).symm

/-- **What writing a file does**: the path leads to a place, and the file is put there. -/
theorem exists_of_write (h : fs.write base path content = .ok fs') :
    ∃ place, fs.LeadsTo base path place ∧ fs' = fs.put place (.file content) ∧ fs.Written place content fs' ∧
      (fs.Proper → fs'.Proper) := by
  rw [write] at h
  cases hp : fs.locateForWriting base path with
  | error e => simp [hp] at h
  | ok p =>
      have located := (locateForWriting_eq_ok_iff.1 hp).2
      rw [hp] at h
      cases p with
      | vacant place =>
          obtain rfl : fs.put place (.file content) = fs' := by simpa using h
          have followed := located
          rw [locate] at followed
          split at followed
          · cases followed
          obtain ⟨outer, entries, name, rfl, hname, hdir, hvacant⟩ :=
            follow_eq_vacant (fun s hs => of_mem_steps hs) followed
          exact ⟨_, ⟨_, located, rfl⟩, rfl, written_put_of_vacant hdir hvacant content,
            fun hfs => hfs.put_of_vacant hdir hname content⟩
      | existing place =>
          cases hnode : fs.node? place with
          | none => simp [hnode] at h
          | some node =>
              cases node with
              | directory entries => simp [hnode] at h
              | link target => simp [hnode] at h
              | file old =>
                  obtain rfl : fs.put place (.file content) = fs' := by simpa [hnode] using h
                  exact ⟨place, ⟨_, located, rfl⟩, rfl, written_put_of_file hnode content,
                    fun hfs => hfs.put_of_file hnode content⟩

/-- What is written lies at a place that can be written to. -/
theorem exists_locateForWriting_of_write (h : fs.write base path content = .ok fs') :
    ∃ p, fs.locateForWriting base path = .ok p := by
  rw [write] at h
  cases hp : fs.locateForWriting base path with
  | error e => simp [hp] at h
  | ok p => exact ⟨p, rfl⟩

/-- Whether a file can be written does not depend on its content. -/
theorem exists_write_of_write (h : fs.write base path content = .ok fs') (other : Bytes) :
    ∃ fs'', fs.write base path other = .ok fs'' := by
  rw [write] at h ⊢
  cases hp : fs.locateForWriting base path with
  | error e => simp [hp] at h
  | ok p =>
      rw [hp] at h
      cases p with
      | vacant place => exact ⟨_, rfl⟩
      | existing place =>
          cases hnode : fs.node? place with
          | none => simp [hnode] at h
          | some node => cases node <;> simp [hnode] at h ⊢

end FileSystem

end SuiteReport
