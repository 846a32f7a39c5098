/-!
# Integers in texts

Integers are written in base ten with an optional sign in front. The scripts and records hold
integers of 32 bits, so reading one also checks its range.
-/

namespace MissionGraph.Number

/-- The characters 0 to 9. -/
def isDigit (c : Char) : Bool :=
  '0' ≤ c && c ≤ '9'

/-- The number that a list of digits denotes in base ten. -/
def ofDigits (digits : List Char) : Nat :=
  Nat.ofDigitChars 10 digits 0

/-- The digits of a number in base ten, without leading zeros. -/
def toDigits (n : Nat) : List Char :=
  Nat.toDigits 10 n

theorem ofDigits_toDigits (n : Nat) : ofDigits (toDigits n) = n :=
  Nat.ofDigitChars_toDigits (by decide) (by decide)

/-- The sign in front of a number, true for a minus, and the text after it. -/
def splitSign : List Char → Bool × List Char
  | '-' :: rest => (true, rest)
  | '+' :: rest => (false, rest)
  | text => (false, text)

/-- A natural number written with digits only. -/
def readNat? (text : List Char) : Option Nat :=
  if text ≠ [] ∧ text.all isDigit then some (ofDigits text) else none

/-- An integer with an optional sign. -/
def readInt? (text : List Char) : Option Int :=
  match splitSign text with
  | (true, digits) => (readNat? digits).map fun n => -(n : Int)
  | (false, digits) => (readNat? digits).map fun n => (n : Int)

/-- An integer that fits into 32 bits, the highest bit being its sign. -/
def ofInt? (value : Int) : Option Int32 :=
  if Int32.minValue.toInt ≤ value ∧ value ≤ Int32.maxValue.toInt then some (Int32.ofInt value)
  else none

/-- A 32-bit integer with an optional sign. -/
def readInt32? (text : List Char) : Option Int32 :=
  (readInt? text).bind ofInt?

/-- The natural number below the bound that the text denotes; a plus may stand in front of it. -/
def readBelow? (bound : Nat) : List Char → Option Nat
  | '+' :: rest => (readNat? rest).filter (· < bound)
  | text => (readNat? text).filter (· < bound)

/-- The text of an integer: a minus for negative numbers, then the digits. -/
def intText (value : Int) : String :=
  if value < 0 then "-" ++ Nat.repr value.natAbs else Nat.repr value.natAbs

end MissionGraph.Number
