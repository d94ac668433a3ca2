import SuiteReport.Command.Request
/-!
# Arguments of the command line

A command line holds options and the name of a command, after which come the options of the command. Options
of both commands may stand on either side of the name; if such an option stands on both, the later one holds.
Every option takes a value, which is written after it or after an equals sign, and none may be repeated.

## Main definitions

* `Arguments.Flag`: the options.
* `Arguments.UsageError`: what is wrong with a command line.
* `Arguments.parse`: the request that a command line makes.
-/

namespace SuiteReport.Arguments

/-- The options. -/
inductive Flag where
  | logLevel | config | source | junit | output | format | failSnippet
deriving DecidableEq, Repr

/-- The name of an option. -/
def Flag.name : Flag → String
  | .logLevel => "--log-level"
  | .config => "--config"
  | .source => "--source"
  | .junit => "--junit"
  | .output => "--output"
  | .format => "--format"
  | .failSnippet => "--fail-snippet"

/-- The letter that may stand for an option. -/
def Flag.letter? : Flag → Option Char
  | .output => some 'o'
  | _ => none

/-- Where on the command line an option stands. -/
inductive Place where
  /-- Before the name of the command. -/
  | beforeCommand
  /-- After the name of the command that writes reports. -/
  | report
  /-- After the name of the command that lists units. -/
  | list
deriving DecidableEq, Repr

/-- The options that may stand at a place. -/
def Place.flags : Place → List Flag
  | .beforeCommand => [.logLevel, .config]
  | .report => [.logLevel, .config, .source, .junit, .output, .format, .failSnippet]
  | .list => [.logLevel, .config, .source, .format]

/-- What is wrong with a command line. -/
inductive UsageError where
  /-- There is no command. -/
  | missingCommand
  /-- There is something that has no meaning where it stands. -/
  | unexpected (argument : String)
  /-- An option has no value. -/
  | missingValue (flag : Flag)
  /-- An option has a value that it cannot have. -/
  | invalidValue (flag : Flag) (value : String)
  /-- An option is repeated. -/
  | repeated (flag : Flag)
  /-- An option is missing. -/
  | missing (flag : Flag)
deriving DecidableEq, Repr

/-- What is said about a wrong command line. -/
def UsageError.message : UsageError → String
  | missingCommand => "a command is required: report or list"
  | unexpected argument => "unexpected argument: " ++ argument
  | missingValue flag => "a value is required for " ++ flag.name
  | invalidValue flag value => "invalid value for " ++ flag.name ++ ": " ++ value
  | repeated flag => flag.name ++ " cannot be used more than once"
  | missing flag => flag.name ++ " is required"

/-! ### Values -/

/-- The greatest number that can be given. -/
def greatestNumber : Nat := 0xFFFFFFFFFFFFFFFF

/-- The number that a value denotes, perhaps after a plus sign. -/
def number? (value : String) : Option Nat := do
  let digits := match value.toList with
    | '+' :: digits => digits
    | digits => digits
  guard (digits ≠ [] ∧ digits.all fun c => '0' ≤ c && c ≤ '9')
  let n := digits.foldl (fun n c => n * 10 + (c.toNat - '0'.toNat)) 0
  guard (n ≤ greatestNumber)
  return n

/-- The words for the forms of a report. -/
def reportFormats : List (String × ReportFormat) := [("markdown", .markdown), ("json", .json)]

/-- The words for the forms of a list. -/
def listFormats : List (String × ListFormat) := [("text", .text), ("json", .json)]

/-- How much the program may say about its work. -/
def logLevels : List String := ["trace", "debug", "info", "warn", "error"]

/-- Whether an option can have the value at a place. -/
def isValid (place : Place) (value : String) : Flag → Bool
  | .logLevel => logLevels.contains value
  | .config | .source | .junit | .output => value != ""
  | .format =>
    if place = .list then (listFormats.lookup value).isSome else (reportFormats.lookup value).isSome
  | .failSnippet => (number? value).isSome

/-! ### Options -/

/-- The options at a place, with their values. -/
abbrev Values := List (Flag × String)

/-- The value of an option that is given. -/
def valueOf? (values : Values) (flag : Flag) : Option String := values.lookup flag

/-- Adds an option with its value. -/
def addValue (place : Place) (values : Values) (flag : Flag) (value : String) :
    Except UsageError Values :=
  if !isValid place value flag then .error (.invalidValue flag value)
  else if (valueOf? values flag).isSome then .error (.repeated flag)
  else .ok (values ++ [(flag, value)])

/-- What a single argument is. -/
inductive Item where
  /-- An option, with its value if that is part of the argument. -/
  | option (flag : Flag) (value : Option String)
  /-- The question for the version. -/
  | version
  /-- The question for help. -/
  | help
  /-- The sign that no options follow. -/
  | theEnd
  /-- A word that is no option. -/
  | word
  /-- Something that looks like an option and is none at the place. -/
  | unknown

/-- What a long option with the given name is, where `value` comes after its equals sign. -/
def longItem (place : Place) (name : String) (value : Option String) : Item :=
  match place.flags.find? (·.name == name), value with
  | some flag, value => .option flag value
  | none, some _ => .unknown
  | none, none =>
    if name = "--help" then .help
    else if name = "--version" ∧ place = .beforeCommand then .version
    else .unknown

/-- What an option with one letter is, where `rest` comes after the letter. -/
def shortItem (place : Place) (letter : Char) (rest : List Char) : Item :=
  match place.flags.find? (·.letter? == some letter) with
  | some flag =>
    match rest with
    | [] => .option flag none
    | '=' :: value => .option flag (some (String.ofList value))
    | value => .option flag (some (String.ofList value))
  | none =>
    if letter = 'h' then .help
    else if letter = 'V' ∧ place = .beforeCommand then .version
    else .unknown

/-- What an argument is at a place. -/
def item (place : Place) (argument : String) : Item :=
  match argument.toList with
  | ['-', '-'] => .theEnd
  | '-' :: '-' :: rest =>
    match rest.span (· != '=') with
    | (name, []) => longItem place ("--" ++ String.ofList name) none
    | (name, _ :: value) => longItem place ("--" ++ String.ofList name) (some (String.ofList value))
  | '-' :: letter :: rest => shortItem place letter rest
  | _ => .word

/-- Whether an argument looks like an option and so is no value. -/
def looksLikeOption (argument : String) : Bool :=
  match argument.toList with
  | '-' :: _ :: _ => true
  | _ => false

/-- What reading options comes to. -/
inductive Reading where
  /-- The options, and the arguments from the first word on. -/
  | values (values : Values) (rest : List String)
  /-- The question for the version. -/
  | version
  /-- The question for help. -/
  | help

/-- Reads options up to the first word that is none. -/
def readOptions (place : Place) (values : Values) : List String → Except UsageError Reading
  | [] => .ok (.values values [])
  | argument :: rest =>
    match item place argument with
    | .unknown => .error (.unexpected argument)
    | .version => .ok .version
    | .help => .ok .help
    | .word => .ok (.values values (argument :: rest))
    | .theEnd =>
      match rest with
      | [] => .ok (.values values [])
      | word :: _ => .error (.unexpected word)
    | .option flag (some value) => do
      readOptions place (← addValue place values flag value) rest
    | .option flag none =>
      match rest with
      | [] => .error (.missingValue flag)
      | value :: rest =>
        if looksLikeOption value then .error (.missingValue flag)
        else do
          readOptions place (← addValue place values flag value) rest

/-! ### Command lines -/

/-- The request to write a report that the options make. -/
def reportRequest (values : Values) : Except UsageError ReportRequest :=
  match valueOf? values .junit with
  | none => .error (.missing .junit)
  | some junit => .ok {
      source := (valueOf? values .source).getD "."
      junit
      output := (valueOf? values .output).getD "TESTS.md"
      format := ((valueOf? values .format).bind fun word => reportFormats.lookup word).getD .markdown
      failSnippet := (valueOf? values .failSnippet).bind number? }

/-- The request to list the units that the options make. -/
def listRequest (values : Values) : ListRequest :=
  { source := (valueOf? values .source).getD "."
    format := ((valueOf? values .format).bind fun word => listFormats.lookup word).getD .text }

/-- The request of a command, the options of which come after those before its name. -/
def commandRequest (before : Values) (place : Place) (arguments : List String)
    (command : Values → Except UsageError Command) : Except UsageError Request := do
  match ← readOptions place [] arguments with
  | .version => return .version
  | .help => return .help
  | .values _ (word :: _) => .error (.unexpected word)
  | .values values [] =>
    let settings := (valueOf? values .config).orElse fun _ => valueOf? before .config
    return .command (← command values) settings

/-- The request that a command line makes. -/
def parse (arguments : List String) : Except UsageError Request := do
  match ← readOptions .beforeCommand [] arguments with
  | .version => return .version
  | .help => return .help
  | .values _ [] => .error .missingCommand
  | .values before (word :: rest) =>
    if word = "report" then
      commandRequest before .report rest fun values => do
        return .report (← reportRequest values)
    else if word = "list" then
      commandRequest before .list rest fun values => .ok (.list (listRequest values))
    else if word = "help" ∧ rest ∈ [[], ["report"], ["list"], ["help"]] then
      return .help
    else
      .error (.unexpected word)

end SuiteReport.Arguments
