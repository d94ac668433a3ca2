import SuiteReport.Files.View
/-!
# File systems as values

A file system is a tree of directories, files and links. A path is followed from a directory through its
segments; at a link the segments of its target take the place of the link. Since links may lead in circles,
only so many of them are followed.

## Main definitions

* `FileNode`, `FileSystem`: file systems.
* `FileSystem.locate`: where a path leads.
* `FileSystem.read`, `FileSystem.write`: the content of a file.
* `FileSystem.view`: the file system as seen from one of its directories.
-/

namespace SuiteReport

/-- What lies at a place of a file system. -/
inductive FileNode where
  /-- A regular file. -/
  | file (content : Bytes)
  /-- A directory. -/
  | directory (entries : List (String × FileNode))
  /-- A link. Its target starts from the directory that the link stands in. -/
  | link (target : String)
deriving Repr, Inhabited

namespace FileNode

/-- The entry of a directory with the given name. -/
def entry? (name : String) : FileNode → Option FileNode
  | directory entries => entries.lookup name
  | _ => none

/-- Whether the node is a directory. -/
def isDirectory : FileNode → Bool
  | directory _ => true
  | _ => false

/-- The node that a list of names leads to, links not followed. -/
def at? : List String → FileNode → Option FileNode
  | [], node => some node
  | name :: names, node => (node.entry? name).bind (at? names)

/-- The entries with the one of the given name replaced, or with it added at the end. -/
def setEntry (name : String) (node : FileNode) : List (String × FileNode) → List (String × FileNode)
  | [] => [(name, node)]
  | (k, old) :: later => if k = name then (k, node) :: later else (k, old) :: setEntry name node later

/-- The node with what lies at the end of a list of names replaced or added. Nothing changes where the names
do not lead through directories. -/
def put (new : FileNode) : List String → FileNode → FileNode
  | [], _ => new
  | [name], directory entries => directory (setEntry name new entries)
  | name :: names, directory entries =>
    match entries.lookup name with
    | none => directory entries
    | some child => directory (setEntry name (put new names child) entries)
  | _ :: _, node => node

/-- The node without what lies at the end of a list of names. -/
def erase : List String → FileNode → FileNode
  | [], node => node
  | [name], directory entries => directory (entries.filter (·.1 != name))
  | name :: names, directory entries =>
    match entries.lookup name with
    | none => directory entries
    | some child => directory (setEntry name (erase names child) entries)
  | _ :: _, node => node

end FileNode

/-- A file system, by its root directory. -/
structure FileSystem where
  /-- The root directory. -/
  root : FileNode
deriving Repr, Inhabited

/-- Where a path leads. -/
inductive Place where
  /-- To the node at the end of the names. -/
  | existing (names : List String)
  /-- To a name that its directory does not have. -/
  | vacant (names : List String)
deriving DecidableEq, Repr

namespace FileSystem

/-- A file system without files. -/
def empty : FileSystem := ⟨.directory []⟩

/-- The node at the end of a list of names, links not followed. -/
def node? (fs : FileSystem) (names : List String) : Option FileNode := fs.root.at? names

/-! ### Following paths -/

/-- The greatest number of links that are followed on the way along a path. -/
def linkLimit : Nat := 40

/-- The segments that a path is followed through. A slash at the end asks for a directory. -/
def steps (path : String) : List String :=
  let segments := Path.segments path
  segments.filter (· != "") ++ if segments.getLast? = some "" then ["."] else []

/-- The directory that the steps of a path start from. -/
def origin (base : List String) (path : String) : List String := if Path.isAbsolute path then [] else base

/-- Follows steps from a directory, and at most so many links. -/
def follow (fs : FileSystem) (links : Nat) (here : List String) (remaining : List String) :
    Except FileError Place :=
  match remaining with
  | [] => .ok (.existing here)
  | step :: later =>
    match fs.node? here with
    | some (.directory entries) =>
      if step = "." then fs.follow links here later
      else if step = ".." then fs.follow links here.dropLast later
      else
        match entries.lookup step with
        | none => if later.isEmpty then .ok (.vacant (here ++ [step])) else .error .notFound
        | some (.link target) =>
          match links with
          | 0 => .error .tooManyLinks
          | links + 1 => fs.follow links (origin here target) (steps target ++ later)
        | some _ => fs.follow links (here ++ [step]) later
    | _ => .error .notADirectory
termination_by (links, remaining.length)

/-- Where a path leads from a directory. -/
def locate (fs : FileSystem) (base : List String) (path : String) : Except FileError Place :=
  if path = "" then .error .notFound else fs.follow linkLimit (origin base path) (steps path)

/-- The names of the node that a path leads to, without links. -/
def resolve (fs : FileSystem) (base : List String) (path : String) : Except FileError (List String) :=
  match fs.locate base path with
  | .error e => .error e
  | .ok (.vacant _) => .error .notFound
  | .ok (.existing names) => .ok names

/-- The node that a path leads to. -/
def find? (fs : FileSystem) (base : List String) (path : String) : Option FileNode :=
  match fs.resolve base path with
  | .error _ => none
  | .ok names => fs.node? names

/-! ### Reading -/

/-- The content of the file that a path leads to. -/
def read (fs : FileSystem) (base : List String) (path : String) : Except FileError Bytes :=
  match fs.resolve base path with
  | .error e => .error e
  | .ok names =>
    match fs.node? names with
    | some (.file content) => .ok content
    | some (.directory _) => .error .isADirectory
    | _ => .error .notFound

/-- Whether the path leads to a directory. -/
def isDirectory (fs : FileSystem) (base : List String) (path : String) : Bool :=
  (fs.find? base path).any FileNode.isDirectory

/-- Whether the path leads to a regular file. -/
def isFile (fs : FileSystem) (base : List String) (path : String) : Bool :=
  match fs.find? base path with
  | some (.file _) => true
  | _ => false

mutual

/-- What lies at the end of a list of names, links not followed. -/
def tree (fs : FileSystem) (directory : List String) (name : String) : FileNode → FileTree
  | .file _ => .file
  | .directory entries => .directory (trees fs (directory ++ [name]) entries)
  | .link _ => .other (fs.isFile directory name)

/-- What lies in a directory. -/
def trees (fs : FileSystem) (directory : List String) : List (String × FileNode) → List (String × FileTree)
  | [] => []
  | (name, node) :: later => (name, tree fs directory name node) :: trees fs directory later

end

/-- What lies in the directory that a path leads to. -/
def entries (fs : FileSystem) (base : List String) (path : String) : List (String × FileTree) :=
  match fs.resolve base path with
  | .error _ => []
  | .ok names =>
    match fs.node? names with
    | some (.directory entries) => fs.trees names entries
    | _ => []

/-- The file system as seen from one of its directories. -/
def view (fs : FileSystem) (base : List String) : FileView Id where
  canonical? path := (fs.resolve base path).toOption
  isDirectory path := fs.isDirectory base path
  isFile path := fs.isFile base path
  read path := fs.read base path
  entries path := fs.entries base path

/-! ### Changing -/

/-- The file system with a node put at the end of a list of names. -/
def put (fs : FileSystem) (names : List String) (node : FileNode) : FileSystem :=
  ⟨FileNode.put node names fs.root⟩

/-- Where a file that is to be written lies. A path that ends in a slash leads to no file, whatever lies
there. -/
def locateForWriting (fs : FileSystem) (base : List String) (path : String) : Except FileError Place :=
  if path.toList.getLast? = some Path.separator then
    match fs.follow linkLimit (origin base path) (steps path).dropLast.dropLast with
    | .error e => .error e
    | .ok (.vacant _) => .error .notFound
    | .ok (.existing names) =>
      if (fs.node? names).any FileNode.isDirectory then .error .isADirectory else .error .notADirectory
  else
    fs.locate base path

/-- The file system after a file has been written. The directory that it lies in has to exist. -/
def write (fs : FileSystem) (base : List String) (path : String) (content : Bytes) :
    Except FileError FileSystem :=
  match fs.locateForWriting base path with
  | .error e => .error e
  | .ok (.vacant names) => .ok (fs.put names (.file content))
  | .ok (.existing names) =>
    match fs.node? names with
    | some (.file _) => .ok (fs.put names (.file content))
    | _ => .error .isADirectory

/-- The file system with the directories on the way along some steps, where they are missing. -/
def makeDirectories (fs : FileSystem) (base : List String) : List String → FileSystem
  | [] => fs
  | step :: later =>
    match fs.follow linkLimit base [step] with
    | .ok (.existing names) => fs.makeDirectories names later
    | .ok (.vacant names) => (fs.put names (.directory [])).makeDirectories names later
    | .error _ => fs

/-- The file system without what lies at the end of a path, which is not followed if it is a link. -/
def remove (fs : FileSystem) (base : List String) (path : String) : FileSystem :=
  match (steps path).getLast? with
  | none => fs
  | some name =>
    match fs.follow linkLimit (origin base path) (steps path).dropLast with
    | .ok (.existing names) => ⟨FileNode.erase (names ++ [name]) fs.root⟩
    | _ => fs

/-- The file system with a link at the end of a path. -/
def link (fs : FileSystem) (base : List String) (path target : String) : FileSystem :=
  match fs.locate base path with
  | .ok (.vacant names) => fs.put names (.link target)
  | _ => fs

end FileSystem

end SuiteReport
