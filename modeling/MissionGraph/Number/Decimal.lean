import MissionGraph.Number.Single

/-!
# Decimal texts of single-precision numbers

A number is read as the single-precision number nearest to its decimal text. It is written with the
fewest digits that read back to it, always without an exponent.
-/

namespace MissionGraph.Number

/-- A decimal fraction `coefficient * 10 ^ exponent` with a sign. -/
structure Decimal where
  negative : Bool
  coefficient : Nat
  exponent : Int
deriving DecidableEq

namespace Decimal

/-- Digits, and digits after a point if there is one, and the text after them. At least one digit is
needed. The coefficient takes all digits, the exponent counts those after the point. -/
def readDigits? (text : List Char) : Option (Nat × Int × List Char) :=
  let whole := text.takeWhile isDigit
  match text.dropWhile isDigit with
  | '.' :: rest =>
      let fraction := rest.takeWhile isDigit
      if whole = [] ∧ fraction = [] then none
      else some (ofDigits (whole ++ fraction), -(fraction.length : Int), rest.dropWhile isDigit)
  | rest => if whole = [] then none else some (ofDigits whole, 0, rest)

/-- The power of ten after the digits: nothing, or the letter e and an integer. -/
def readPower? : List Char → Option Int
  | [] => some 0
  | c :: rest => if c = 'e' ∨ c = 'E' then readInt? rest else none

/-- A decimal number with an optional sign, point and power of ten. -/
def read? (text : List Char) : Option Decimal :=
  let (negative, body) := splitSign text
  (readDigits? body).bind fun (coefficient, shift, rest) =>
    (readPower? rest).map fun power => ⟨negative, coefficient, shift + power⟩

/-- The text of `coefficient * 10 ^ exponent` without a power of ten and without zeros at the end of
its fraction. -/
def positional (coefficient : Nat) (exponent : Int) : List Char :=
  let digits := toDigits coefficient
  if 0 ≤ exponent then digits ++ List.replicate exponent.toNat '0'
  else
    let places := (-exponent).toNat
    let padded := List.replicate (places + 1 - digits.length) '0' ++ digits
    let fraction := (padded.drop (padded.length - places)).reverse.dropWhile (· == '0') |>.reverse
    let whole := padded.take (padded.length - places)
    if fraction = [] then whole else whole ++ '.' :: fraction

end Decimal

namespace Single

/-- The single-precision number nearest to a decimal fraction. Fractions of at least `10 ^ 40` are
infinite and those below `10 ^ (-60)` are zero, which keeps the powers of ten small. -/
def ofDecimal (decimal : Decimal) : Single :=
  let size : Int := (toDigits decimal.coefficient).length + decimal.exponent
  if decimal.coefficient = 0 ∨ size < -60 then ofFraction decimal.negative 0 1
  else if 41 ≤ size then .infinite decimal.negative
  else if 0 ≤ decimal.exponent then
    ofFraction decimal.negative (decimal.coefficient * Nat.pow 10 decimal.exponent.toNat) 1
  else ofFraction decimal.negative decimal.coefficient (Nat.pow 10 (-decimal.exponent).toNat)

/-- The words for infinite and undefined numbers, in any letter case. -/
def readWord? (text : List Char) : Option Single :=
  let (negative, body) := splitSign text
  let word := body.map Char.toLower
  if word = "inf".toList ∨ word = "infinity".toList then some (.infinite negative)
  else if word = "nan".toList then some .undefined
  else none

/-- The number that a text denotes: a decimal number or one of the words. -/
def read? (text : List Char) : Option Single :=
  match Decimal.read? text with
  | some decimal => some (ofDecimal decimal)
  | none => readWord? text

end Single

namespace Finite

/-- The numerator of the magnitude over the denominator `2 ^ scaleBits`. -/
def numerator (value : Finite) : Nat :=
  value.mantissa * Nat.pow 2 value.exponent

/-- The least power of ten above the magnitude of a number other than zero. All such magnitudes are
above `10 ^ (-45)`. -/
def decimalSize (value : Finite) : Int :=
  ((toDigits (value.numerator * Nat.pow 10 45 / Nat.pow 2 scaleBits)).length : Int) - 45

/-- The magnitude over `10 ^ exponent` as a fraction. -/
def overPower (value : Finite) (exponent : Int) : Nat × Nat :=
  if 0 ≤ exponent then (value.numerator, Nat.pow 2 scaleBits * Nat.pow 10 exponent.toNat)
  else (value.numerator * Nat.pow 10 (-exponent).toNat, Nat.pow 2 scaleBits)

/-- The text with the sign of the number in front. -/
def signed (value : Finite) (digits : List Char) : List Char :=
  if value.negative then '-' :: digits else digits

/-- The text denotes this very number. -/
def readsBack (value : Finite) (text : List Char) : Bool :=
  Single.read? text == some (.finite value)

/-- A text that reads back and ends at the given power of ten, if there is one. Only the two decimal
neighbours of the number, given over that power, can be such texts; of two the nearer is taken, and the
larger one on a tie. -/
def neighbour? (value : Finite) (exponent : Int) : Nat × Nat → Option (List Char)
  | (dividend, divisor) =>
      let below := signed value (Decimal.positional (dividend / divisor) exponent)
      let above := signed value (Decimal.positional (dividend / divisor + 1) exponent)
      let aboveIsNearer := (2 * (dividend / divisor) + 1) * divisor ≤ 2 * dividend
      if value.readsBack above && (aboveIsNearer || !value.readsBack below) then some above
      else if value.readsBack below then some below
      else none

/-- A text with the given count of digits that reads back, if there is one. -/
def textWith? (value : Finite) (count : Nat) : Option (List Char) :=
  let exponent := value.decimalSize - count
  value.neighbour? exponent (value.overPower exponent)

/-- All decimal digits of the number, since every binary fraction is a decimal fraction. -/
def exactText (value : Finite) : List Char :=
  signed value (Decimal.positional (value.numerator * Nat.pow 5 scaleBits) (-scaleBits))

/-- The text of a finite number: the first that reads back among those with 1, 2, … digits. Nine
digits tell any two single-precision numbers apart. -/
def text (value : Finite) : List Char :=
  if value.mantissa = 0 then signed value ['0']
  else ((List.range' 1 9).findSome? value.textWith?).getD value.exactText

end Finite

namespace Single

/-- The text of a single-precision number. -/
def text : Single → String
  | .finite value => String.ofList value.text
  | .infinite negative => if negative then "-inf" else "inf"
  | .undefined => "NaN"

end Single

end MissionGraph.Number
