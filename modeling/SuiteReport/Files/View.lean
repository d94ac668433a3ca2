import SuiteReport.Files.Error
import SuiteReport.Files.Path
import SuiteReport.Text.Bytes
/-!
# Views of a file system

What the program asks of a file system, apart from any particular one. The questions are answered in some
monad, so that the same program can look at a file system that is a value and at the one of the machine.

## Main definitions

* `FileTree`: what lies below a directory, links not followed.
* `FileView`: the questions.
* `FileView.readText`: the content of a file as text.
-/

namespace SuiteReport

/-- What lies at a place, links not followed. -/
inductive FileTree where
  /-- A regular file. -/
  | file
  /-- A directory with its entries. -/
  | directory (entries : List (String × FileTree))
  /-- A link or anything else; whether it leads to a regular file. -/
  | other (leadsToFile : Bool)
deriving Repr

/-- The questions that can be asked of a file system. Paths are as written, and links are followed. -/
structure FileView (m : Type → Type) where
  /-- The names that lead from the root directory to what the path leads to, without links. -/
  canonical? : String → m (Option (List String))
  /-- Whether the path leads to a directory. -/
  isDirectory : String → m Bool
  /-- Whether the path leads to a regular file. -/
  isFile : String → m Bool
  /-- The content of the file that the path leads to. -/
  read : String → m (Except FileError Bytes)
  /-- The entries of the directory that the path leads to and everything below them. -/
  entries : String → m (List (String × FileTree))

/-- The content of a file as text. -/
def FileView.readText {m : Type → Type} [Monad m] (view : FileView m) (path : String) :
    m (Except FileError String) := do
  match ← view.read path with
  | .error e => return .error e
  | .ok content =>
    match Bytes.decode? content with
    | none => return .error .notText
    | some text => return .ok text

end SuiteReport
