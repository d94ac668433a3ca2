/-!
# Decimal numbers

## Main definitions

* `decimal`: a natural number in decimal digits.
-/

namespace SuiteReport

/-- A natural number in decimal digits, without leading zeros. -/
def decimal (n : Nat) : String := String.ofList (Nat.toDigits 10 n)

end SuiteReport
