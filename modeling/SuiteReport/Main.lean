import SuiteReport.Command.Run
/-!
# The program

The command line program: it looks at the file system of the machine, and does the writing and printing that
a command comes to.
-/

namespace SuiteReport.Machine

/-- The number of an error of the operating system and what it means. -/
def numbered? : IO.Error → Option (UInt32 × String)
  | .alreadyExists _ code detail | .noFileOrDirectory _ code detail | .invalidArgument _ code detail
  | .permissionDenied _ code detail | .resourceExhausted _ code detail | .inappropriateType _ code detail
  | .noSuchThing _ code detail | .interrupted _ code detail => some (code, detail)
  | .otherError code detail | .resourceBusy code detail | .resourceVanished code detail
  | .unsupportedOperation code detail | .hardwareFault code detail | .unsatisfiedConstraints code detail
  | .illegalOperation code detail | .protocolError code detail | .timeExpired code detail => some (code, detail)
  | .unexpectedEof | .userError _ => none

/-- The reason for which the machine could not do something with a file. Some calls give the number of an error with
its sign turned. -/
def fileError (e : IO.Error) : FileError :=
  match numbered? e with
  | none => .other (toString e)
  | some (code, detail) =>
    match if code < 2147483648 then code else 0 - code with
    | 2 => .notFound
    | 20 => .notADirectory
    | 21 => .isADirectory
    | 40 => .tooManyLinks
    | number => .other (detail ++ " (os error " ++ toString number ++ ")")

/-- Whether a path leads to something of a type. -/
def leadsTo (type : IO.FS.FileType) (path : String) : IO Bool := do
  try
    return (← (← IO.FS.realPath path).metadata).type == type
  catch _ =>
    return false

/-- The content of a file. -/
def read (path : String) : IO (Except FileError Bytes) := do
  if ← leadsTo .dir path then
    return .error .isADirectory
  try
    return .ok (← IO.FS.readBinFile path).toList
  catch e =>
    return .error (fileError e)

/-- What lies in a directory. What cannot be looked at is left out. -/
partial def entries (path : String) : IO (List (String × FileTree)) := do
  try
    let found ← (← IO.FS.realPath path).readDir
    let trees ← found.toList.mapM fun entry => do
      let inner := Path.join path entry.fileName
      match (← entry.path.symlinkMetadata).type with
      | .file => return (entry.fileName, FileTree.file)
      | .dir => return (entry.fileName, .directory (← entries inner))
      | _ => return (entry.fileName, .other (← leadsTo .file inner))
    return trees
  catch _ =>
    return []

/-- The file system of the machine. -/
def view : FileView IO where
  canonical? path := do
    try
      return some (Path.names (← IO.FS.realPath path).toString)
    catch _ =>
      return none
  isDirectory := leadsTo .dir
  isFile := leadsTo .file
  read := read
  entries := entries

/-- Writes a file. -/
def write (path text : String) : IO (Except FileError Unit) := do
  if ← leadsTo .dir path then
    return .error .isADirectory
  try
    IO.FS.writeFile path text
    return .ok ()
  catch e =>
    return .error (fileError e)

/-- Carries out what a command comes to. -/
def carryOut (effect : Effect) : IO Outcome := do
  match effect.written with
  | none => return .success effect.printed
  | some (path, text) =>
    match ← write path text with
    | .error e => return .ofFailure (outputFailure path e)
    | .ok () => return .success effect.printed

/-- Runs the program. -/
def run (arguments : List String) : IO Outcome := do
  match Arguments.parse arguments with
  | .error e => return .ofUsageError e
  | .ok .version => return .success Outcome.versionText
  | .ok .help => return .success Outcome.helpText
  | .ok (.command c given) =>
    match ← effectOf view given c with
    | .error e => return .ofFailure e
    | .ok effect => carryOut effect

end SuiteReport.Machine

/-- The program: prints what a run prints and ends with its code. -/
def main (arguments : List String) : IO UInt32 := do
  let outcome ← SuiteReport.Machine.run arguments
  (← IO.getStdout).putStr outcome.stdout
  (← IO.getStderr).putStr outcome.stderr
  return outcome.exitCode.toUInt32
