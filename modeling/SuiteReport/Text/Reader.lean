/-!
# Readers

A reader takes something from the beginning of a text or refuses to. Where a reader refuses, the next
alternative starts from the same place.

## Main definitions

* `Reader`: a reader of values of some type.
* `Reader.one`, `Reader.char`, `Reader.literal`, `Reader.takeWhile`: characters, given texts and runs.
* `Reader.many`, `Reader.separated`, `Reader.atMostOnce`: repetition.
-/

namespace SuiteReport

/-- Takes a value from the beginning of a text, or refuses to. -/
abbrev Reader := StateT (List Char) Option

namespace Reader

variable {α β : Type}

/-- One character of a class. -/
def one (p : Char → Bool) : Reader Char := fun s =>
  match s with
  | [] => none
  | c :: rest => if p c then some (c, rest) else none

/-- A given character. -/
def char (c : Char) : Reader Unit := do
  let _ ← one (· == c)

/-- A given text. -/
def literal (word : List Char) : Reader Unit := word.forM char

/-- The next character, which is left in place. -/
def ahead : Reader (Option Char) := do
  return (← get).head?

/-- All characters of a class up to the first other one. -/
def takeWhile (p : Char → Bool) : Reader (List Char) := fun s => some (s.span p)

/-- At least one character of a class, and all up to the first other one. -/
def takeWhile1 (p : Char → Bool) : Reader (List Char) := do
  let cs ← takeWhile p
  guard (!cs.isEmpty)
  return cs

/-- A fixed value, wherever the reader takes something. -/
def giving (a : α) (r : Reader β) : Reader α := do
  let _ ← r
  return a

/-- What the reader takes, as long as it does and at most `n` times. -/
def manyUpTo (r : Reader α) : Nat → Reader (List α)
  | 0 => return []
  | n + 1 =>
    (do
      let a ← r
      let later ← manyUpTo r n
      return a :: later) <|> return []

/-- What a reader takes, again and again until it refuses. The reader has to take something each time. -/
def many (r : Reader α) : Reader (List α) := do
  manyUpTo r (← get).length

/-- What a reader takes, unless it refuses. -/
def atMostOnce (r : Reader α) : Reader (Option α) := (some <$> r) <|> return none

/-- What a reader takes, at least once and with separators between. -/
def separated (r : Reader α) (separator : Reader β) : Reader (List α) := do
  let a ← r
  return a :: (← many (separator *> r))

/-- A given number of characters of a class. -/
def times (n : Nat) (p : Char → Bool) : Reader (List Char) := (List.replicate n p).mapM one

/-- The end of the text. -/
def theEnd : Reader Unit := do
  guard (← get).isEmpty

/-- What the reader takes from the whole of a text. -/
def whole? (r : Reader α) (s : List Char) : Option α := (StateT.run (r <* theEnd) s).map Prod.fst

end Reader

end SuiteReport
