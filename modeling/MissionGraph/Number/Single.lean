import MissionGraph.Number.Integer

/-!
# Single-precision numbers

The coordinates of a message and the limits of a difficulty are binary floating-point numbers with
24 bits of precision. A finite one is a mantissa times a power of two; among the mantissas for one
value the type admits exactly one, so equal numbers are equal as terms (the two zeros apart).
-/

namespace MissionGraph.Number

/-- The least exponent is `-2 ^ 149`; exponents are counted upwards from it. -/
def scaleBits : Nat := 149

/-- Conditions on the mantissa and the counted exponent of a finite number: the mantissa has at
most 24 bits, and all of them unless the exponent is the least one. -/
def Canonical (mantissa exponent : Nat) : Prop :=
  mantissa < Nat.pow 2 24 ∧ exponent ≤ 253 ∧ (exponent = 0 ∨ Nat.pow 2 23 ≤ mantissa)

instance (mantissa exponent : Nat) : Decidable (Canonical mantissa exponent) :=
  inferInstanceAs (Decidable (_ ∧ _ ∧ (_ ∨ _)))

/-- The number `mantissa * 2 ^ exponent / 2 ^ scaleBits` with a sign. -/
structure Finite where
  negative : Bool
  mantissa : Nat
  exponent : Nat
  canonical : Canonical mantissa exponent
deriving DecidableEq

/-- A single-precision number. -/
inductive Single where
  | finite (value : Finite)
  | infinite (negative : Bool)
  | undefined
deriving DecidableEq

namespace Single

/-- The number with the given parts, infinite if they are too large. -/
def ofParts (negative : Bool) (mantissa exponent : Nat) : Single :=
  if canonical : Canonical mantissa exponent then .finite ⟨negative, mantissa, exponent, canonical⟩
  else .infinite negative

/-- The quotient rounded to the nearest natural number, a half to the even neighbour. -/
def roundDiv (dividend divisor : Nat) : Nat :=
  let quotient := dividend / divisor
  let remainder := dividend % divisor
  if divisor < 2 * remainder ∨ (2 * remainder = divisor ∧ quotient % 2 = 1) then quotient + 1
  else quotient

/-- The single-precision number nearest to a fraction. The exponent leaves 24 bits before the point;
a mantissa that rounds up to 25 bits is halved. -/
def ofFraction (negative : Bool) (numerator denominator : Nat) : Single :=
  let scaled := numerator * Nat.pow 2 scaleBits
  let exponent := (scaled / denominator).log2 - 23
  let mantissa := roundDiv scaled (denominator * Nat.pow 2 exponent)
  if mantissa = Nat.pow 2 24 then ofParts negative (Nat.pow 2 23) (exponent + 1)
  else ofParts negative mantissa exponent

/-- The single-precision number nearest to an integer. -/
def ofInt (value : Int) : Single :=
  ofFraction (value < 0) value.natAbs 1

/-- The number is neither infinite nor undefined. -/
def isFinite : Single → Bool
  | .finite _ => true
  | _ => false

end Single

end MissionGraph.Number
