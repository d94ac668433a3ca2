import SuiteReport.Text.Reader
/-!
# Numbers and dates of TOML documents

Whole numbers have 64 bits and may be written in four radices. A number with a fraction or an exponent must
not be too large. A date has to be one of the calendar.

## Main definitions

* `Toml.integer`: a whole number.
* `Toml.float`: any other number, as it is written.
* `Toml.dateTime`: a date, a time, or both, as written.
-/

namespace SuiteReport.Toml

open Reader

/-- Whether the character is a decimal digit. -/
def isDigit (c : Char) : Bool := '0' ≤ c && c ≤ '9'

/-- What a reader takes, as it is written. -/
def spelling {α : Type} (r : Reader α) : Reader (List Char) := fun s =>
  (r s).map fun (_, rest) => (s.take (s.length - rest.length), rest)

/-! ### Whole numbers -/

/-- Digits of a class with single low lines between them. -/
def digits (p : Char → Bool) : Reader (List Char) := do
  let d ← one p
  let later ← many (one p <|> char '_' *> one p)
  return d :: later

/-- The value of a digit of any radix up to sixteen. -/
def digitValue (c : Char) : Nat :=
  if isDigit c then c.toNat - '0'.toNat
  else if 'a' ≤ c ∧ c ≤ 'f' then c.toNat - 'a'.toNat + 10
  else c.toNat - 'A'.toNat + 10

/-- The number that the digits denote. -/
def digitsValue (radix : Nat) (ds : List Char) : Nat := ds.foldl (fun n c => n * radix + digitValue c) 0

/-- Whether the number has 64 bits. -/
def fits (n : Int) : Bool := -0x8000000000000000 ≤ n && n < 0x8000000000000000

/-- A sign: whether it is a minus, if there is one. -/
def sign : Reader (Option Bool) := atMostOnce (giving true (char '-') <|> giving false (char '+'))

/-- The digits of a decimal number, which begins with a zero only if that is all of it. -/
def decimalDigits : Reader (List Char) := do
  match ← ahead with
  | some '0' =>
    char '0'
    return ['0']
  | _ => digits isDigit

/-- A number written with a letter that tells the radix. -/
def radixed (letter : Char) (radix : Nat) : Reader Int := do
  literal ['0', letter]
  let ds ← digits fun c =>
    (isDigit c || ('a' ≤ c && c ≤ 'f') || ('A' ≤ c && c ≤ 'F')) && digitValue c < radix
  return Int.ofNat (digitsValue radix ds)

/-- A decimal number, perhaps with a sign. -/
def decimal : Reader Int := do
  let negative ← sign
  let n := Int.ofNat (digitsValue 10 (← decimalDigits))
  return if negative = some true then -n else n

/-- A whole number. -/
def integer : Reader Int := do
  let n ← radixed 'x' 16 <|> radixed 'o' 8 <|> radixed 'b' 2 <|> decimal
  guard (fits n)
  return n

/-! ### Other numbers -/

/-- An exponent. -/
def exponent : Reader Int := do
  let _ ← one fun c => c == 'e' || c == 'E'
  let negative ← sign
  let n := Int.ofNat (digitsValue 10 (← digits isDigit))
  return if negative = some true then -n else n

/-- Half a unit beyond the largest number of double precision. From there on a number counts as infinite. -/
def infinityBound : Nat := 1 <<< 1024 - 1 <<< 970

/-- Whether the number `n * 10 ^ e` is too large for double precision. -/
def isInfinite (n : Nat) (e : Int) : Bool :=
  if n = 0 then false
  else
    let magnitude := Int.ofNat (Nat.toDigits 10 n).length + e
    if magnitude < 309 then false
    else if 309 < magnitude then true
    else if 0 ≤ e then infinityBound ≤ n * Nat.pow 10 e.toNat
    else infinityBound * Nat.pow 10 (-e).toNat ≤ n

/-- A number with a fraction or an exponent. -/
def fractional : Reader Unit := do
  let negative ← sign
  let whole ← decimalDigits
  let fraction ← atMostOnce (char '.' *> digits isDigit)
  let power ← atMostOnce exponent
  guard (fraction.isSome || power.isSome)
  let places := fraction.getD []
  guard (negative = some true ||
    !isInfinite (digitsValue 10 (whole ++ places)) (power.getD 0 - Int.ofNat places.length))

/-- A number that is not whole, as it is written. -/
def float : Reader String :=
  String.ofList <$> spelling (fractional <|> do
    let _ ← sign
    literal ['i', 'n', 'f'] <|> literal ['n', 'a', 'n'])

/-! ### Dates -/

/-- A number of so many digits that lies between two bounds. -/
def bounded (count least greatest : Nat) : Reader Nat := do
  let n := digitsValue 10 (← times count isDigit)
  guard (least ≤ n && n ≤ greatest)
  return n

/-- Whether February has 29 days in the year. -/
def isLeapYear (year : Nat) : Bool := year % 4 == 0 && (year % 100 != 0 || year % 400 == 0)

/-- The number of days of a month. -/
def daysIn (year month : Nat) : Nat :=
  if month = 2 then (if isLeapYear year then 29 else 28)
  else if month ∈ [4, 6, 9, 11] then 30
  else 31

/-- A date. -/
def date : Reader Unit := do
  let year ← bounded 4 0 9999
  char '-'
  let month ← bounded 2 1 12
  char '-'
  let day ← bounded 2 1 31
  guard (day ≤ daysIn year month)

/-- A time of the day, perhaps with a fraction of a second. A minute may have a leap second. -/
def time : Reader Unit := do
  let _ ← bounded 2 0 23
  char ':'
  let _ ← bounded 2 0 59
  char ':'
  let _ ← bounded 2 0 60
  let _ ← atMostOnce (char '.' *> takeWhile1 isDigit)

/-- The distance of a local time from universal time. -/
def zone : Reader Unit := do
  match ← one fun c => c == 'Z' || c == 'z' || c == '+' || c == '-' with
  | '+' | '-' =>
    let _ ← bounded 2 0 23
    char ':'
    let _ ← bounded 2 0 59
  | _ => return ()

/-- A date, a time, or both, as written. -/
def dateTime : Reader String :=
  String.ofList <$> spelling (
    (do
      date
      let _ ← atMostOnce (do
        let _ ← one fun c => c == 'T' || c == 't' || c == ' '
        time
        atMostOnce zone))
    <|> time)

end SuiteReport.Toml
