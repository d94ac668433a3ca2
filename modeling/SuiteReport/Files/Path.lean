import SuiteReport.Text.Lines
/-!
# Paths

A path is kept as it is written, since messages show it that way. Compared and taken apart it is a list of
parts, in which repeated slashes, a slash at the end and dots other than a first one leave no trace.

## Main definitions

* `Path.Part`, `Path.parts`: the parts of a path.
* `Path.join`: a path and another one that starts from it.
* `Path.relativeTo?`: the parts of a path after those of another one.
* `Path.ofNames`: the absolute path of a list of names.
-/

namespace SuiteReport.Path

/-- What separates the parts of a path. -/
def separator : Char := '/'

/-- One part of a path. -/
inductive Part where
  /-- The root directory, which only comes first. -/
  | root
  /-- The directory that the path starts from, which only comes first. -/
  | here
  /-- The directory above. -/
  | up
  /-- An entry of a directory. -/
  | name (s : String)
deriving DecidableEq, Repr

/-- How a part is written. -/
def Part.text : Part → String
  | .root => "/"
  | .here => "."
  | .up => ".."
  | .name s => s

/-- The texts between the separators. -/
def segments (path : String) : List String :=
  (splitOn separator path.toList).map String.ofList

/-- Whether the path starts from the root directory. -/
def isAbsolute (path : String) : Bool := path.toList.head? == some separator

/-- The part that a segment stands for, if it stands for one after the beginning of a path. -/
def laterPart? (segment : String) : Option Part :=
  if segment = "" ∨ segment = "." then none
  else if segment = ".." then some .up
  else some (.name segment)

/-- The parts of a path. -/
def parts (path : String) : List Part :=
  match segments path with
  | [] => []
  | first :: later =>
    let beginning :=
      if isAbsolute path then some .root
      else if first = "." then some .here
      else laterPart? first
    beginning.toList ++ later.filterMap laterPart?

/-- The path of `child` as seen from `base`. An absolute path is the same from everywhere. -/
def join (base child : String) : String :=
  if isAbsolute child ∨ base = "" then child
  else if base.toList.getLast? = some separator then base ++ child
  else base ++ "/" ++ child

/-- The parts that follow in `path` after all those of `base`, if it begins with them. -/
def relativeTo? (base path : String) : Option (List Part) :=
  if (parts base).isPrefixOf (parts path) then
    some ((parts path).drop (parts base).length)
  else
    none

/-- The names in a path. -/
def names (path : String) : List String :=
  (parts path).filterMap fun
    | .name s => some s
    | _ => none

/-- Texts with slashes between them. -/
def joined (texts : List String) : String := "/".intercalate texts

/-- The absolute path that leads from the root directory through the given names. -/
def ofNames (names : List String) : String := "/" ++ joined names

/-- The names of a directory and of all those above it, from the innermost to the root directory. -/
def ancestors (names : List String) : List (List String) :=
  (List.range (names.length + 1)).reverse.map fun n => names.take n

end SuiteReport.Path
