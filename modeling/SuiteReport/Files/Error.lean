/-!
# What goes wrong with files

## Main definitions

* `FileError`: why a file cannot be read or written.
* `FileError.message`: how the operating system puts it.
-/

namespace SuiteReport

/-- Why a file cannot be read or written. -/
inductive FileError where
  /-- There is nothing at the path. -/
  | notFound
  /-- The path leads through something that is no directory. -/
  | notADirectory
  /-- There is a directory where a file is asked for. -/
  | isADirectory
  /-- Too many links have to be followed. -/
  | tooManyLinks
  /-- The content is asked for as text and is none. -/
  | notText
  /-- Any other reason, in the words of the operating system. -/
  | other (description : String)
deriving DecidableEq, Repr

/-- How the operating system puts it. -/
def FileError.message : FileError → String
  | notFound => "No such file or directory (os error 2)"
  | notADirectory => "Not a directory (os error 20)"
  | isADirectory => "Is a directory (os error 21)"
  | tooManyLinks => "Too many levels of symbolic links (os error 40)"
  | notText => "stream did not contain valid UTF-8"
  | other description => description

end SuiteReport
