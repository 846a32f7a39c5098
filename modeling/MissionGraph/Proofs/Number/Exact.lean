import Mathlib.Algebra.Group.Nat.Defs
import MissionGraph.Proofs.Number.Digits

/-!
# Finite numbers and their texts

A fraction that is exactly a single-precision number rounds to it, and every finite number is read back
from its text.
-/

namespace MissionGraph.Number

/-! ## Definitions with powers -/

theorem canonical_iff {mantissa exponent : Nat} : Canonical mantissa exponent ↔
    mantissa < 2 ^ 24 ∧ exponent ≤ 253 ∧ (exponent = 0 ∨ 2 ^ 23 ≤ mantissa) :=
  Iff.rfl

theorem Finite.numerator_eq (value : Finite) : value.numerator = value.mantissa * 2 ^ value.exponent :=
  rfl

theorem Finite.exactText_eq (value : Finite) :
    value.exactText = signed value (Decimal.positional (value.numerator * 5 ^ scaleBits) (-scaleBits)) :=
  rfl

theorem Single.ofFraction_eq_ofParts (negative : Bool) (numerator denominator : Nat) :
    ofFraction negative numerator denominator =
      let exponent := (numerator * 2 ^ scaleBits / denominator).log2 - 23
      let mantissa := roundDiv (numerator * 2 ^ scaleBits) (denominator * 2 ^ exponent)
      if mantissa = 2 ^ 24 then ofParts negative (2 ^ 23) (exponent + 1) else ofParts negative mantissa exponent :=
  rfl

/-! ## Fractions -/

namespace Single

theorem roundDiv_mul (quotient : Nat) {divisor : Nat} (positive : 0 < divisor) :
    roundDiv (quotient * divisor) divisor = quotient := by
  unfold roundDiv
  rw [Nat.mul_div_cancel _ positive, Nat.mul_mod_left]
  dsimp only
  rw [if_neg]
  rintro (less | ⟨same, _⟩) <;> omega

/-- The exponent that leaves 24 bits is the counted exponent of a number other than zero. -/
theorem log2_numerator (value : Finite) (nonzero : value.mantissa ≠ 0) :
    value.numerator.log2 - 23 = value.exponent := by
  obtain ⟨negative, mantissa, exponent, canonical⟩ := value
  obtain ⟨few, _, full⟩ := canonical_iff.mp canonical
  dsimp only at nonzero
  have positive : mantissa * 2 ^ exponent ≠ 0 := Nat.mul_ne_zero nonzero (Nat.ne_of_gt (Nat.two_pow_pos _))
  rw [Finite.numerator_eq]
  dsimp only
  rcases full with rfl | full
  · have below : (mantissa * 2 ^ 0).log2 < 24 := (Nat.log2_lt positive).mpr (by omega)
    omega
  · have exactly : (mantissa * 2 ^ exponent).log2 = 23 + exponent := by
      refine (Nat.log2_eq_iff positive).mpr ⟨?_, ?_⟩
      · rw [Nat.pow_add]
        exact Nat.mul_le_mul_right _ full
      · rw [Nat.add_right_comm, Nat.pow_add]
        exact Nat.mul_lt_mul_of_pos_right few (Nat.two_pow_pos _)
    omega

/-- A fraction that is equal to a finite number rounds to that number. -/
theorem ofFraction_eq (value : Finite) (nonzero : value.mantissa ≠ 0) {numerator denominator : Nat}
    (positive : 0 < denominator) (same : numerator * 2 ^ scaleBits = value.numerator * denominator) :
    ofFraction value.negative numerator denominator = .finite value := by
  have exponent := log2_numerator value nonzero
  have canonical := value.canonical
  have scaled : value.numerator * denominator = value.mantissa * (denominator * 2 ^ value.exponent) := by
    rw [Finite.numerator_eq, Nat.mul_assoc, Nat.mul_comm (2 ^ value.exponent)]
  have notFull : value.mantissa ≠ 2 ^ 24 := Nat.ne_of_lt canonical.1
  rw [ofFraction_eq_ofParts]
  dsimp only
  rw [same, Nat.mul_div_cancel _ positive, exponent, scaled,
    roundDiv_mul _ (Nat.mul_pos positive (Nat.two_pow_pos _)), if_neg notFull, ofParts, dif_pos canonical]

/-- Rounding goes to one of the two neighbours of a quotient. -/
theorem roundDiv_bounds (dividend divisor : Nat) :
    dividend / divisor ≤ roundDiv dividend divisor ∧ roundDiv dividend divisor ≤ dividend / divisor + 1 := by
  unfold roundDiv
  dsimp only
  split <;> omega

/-- A number of 24 bits or more, shifted until 24 of them are left. -/
theorem shifted_bounds {scaled : Nat} (large : 2 ^ 23 ≤ scaled) :
    2 ^ 23 ≤ scaled / 2 ^ (scaled.log2 - 23) ∧ scaled / 2 ^ (scaled.log2 - 23) < 2 ^ 24 := by
  have nonzero : scaled ≠ 0 := by omega
  have bits : 23 ≤ scaled.log2 := (Nat.le_log2 nonzero).mpr large
  constructor
  · rw [Nat.le_div_iff_mul_le (Nat.two_pow_pos _), ← Nat.pow_add, Nat.add_sub_cancel' bits]
    exact Nat.log2_self_le nonzero
  · rw [Nat.div_lt_iff_lt_mul (Nat.two_pow_pos _), ← Nat.pow_add]
    have whole : 24 + (scaled.log2 - 23) = scaled.log2 + 1 := by omega
    rw [whole]
    exact Nat.lt_log2_self

/-- A natural number below a bound that is far from infinite has a nearest finite number. -/
theorem exists_finite_ofFraction (negative : Bool) {numerator : Nat} (bound : numerator < 2 ^ 31) :
    ∃ value : Finite, ofFraction negative numerator 1 = .finite value ∧ value.negative = negative := by
  by_cases zero : numerator = 0
  · subst zero
    exact ⟨⟨negative, 0, 0, by decide⟩, rfl, rfl⟩
  · have scaleAt : scaleBits = 149 := rfl
    have large : 2 ^ 23 ≤ numerator * 2 ^ scaleBits := by
      rw [scaleAt]
      omega
    have small : (numerator * 2 ^ scaleBits).log2 < 31 + 149 := by
      refine (Nat.log2_lt (by omega)).mpr ?_
      rw [Nat.pow_add, scaleAt]
      exact Nat.mul_lt_mul_of_pos_right bound (Nat.two_pow_pos _)
    obtain ⟨low, high⟩ := shifted_bounds large
    obtain ⟨down, up⟩ := roundDiv_bounds (numerator * 2 ^ scaleBits) (2 ^ ((numerator * 2 ^ scaleBits).log2 - 23))
    rw [ofFraction_eq_ofParts]
    simp only [Nat.div_one, Nat.one_mul]
    generalize (numerator * 2 ^ scaleBits).log2 = bits at *
    generalize roundDiv _ _ = mantissa at *
    split
    · have canonical : Canonical (2 ^ 23) (bits - 23 + 1) := ⟨by decide, by omega, .inr (Nat.le_refl _)⟩
      rw [ofParts, dif_pos canonical]
      exact ⟨_, rfl, rfl⟩
    · have canonical : Canonical mantissa (bits - 23) := canonical_iff.mpr ⟨by omega, by omega, .inr (by omega)⟩
      rw [ofParts, dif_pos canonical]
      exact ⟨_, rfl, rfl⟩

/-- A 32-bit integer without a minus has a nearest finite number without a minus. -/
theorem exists_finite_ofInt {value : Int32} (nonnegative : 0 ≤ value.toInt) :
    ∃ nearest : Finite, ofInt value.toInt = .finite nearest ∧ nearest.negative = false := by
  have high := value.toInt_lt
  obtain ⟨nearest, same, sign⟩ := exists_finite_ofFraction (decide (value.toInt < 0))
    (show value.toInt.natAbs < 2 ^ 31 by omega)
  exact ⟨nearest, same, sign.trans (decide_eq_false (Int.not_lt.mpr nonnegative))⟩

end Single

/-! ## Positional texts -/

/-- A number without a sign and without a power of ten. -/
inductive Numeral : List Char → Prop where
  | whole {text : List Char} (digits : Digits text) : Numeral text
  | fraction {whole fraction : List Char} (digits : Digits whole) (places : Digits fraction) :
      Numeral (whole ++ '.' :: fraction)

theorem ofDigits_append_zeros (digits : List Char) (count : Nat) :
    ofDigits (digits ++ List.replicate count '0') = 10 ^ count * ofDigits digits := by
  rw [ofDigits, Nat.ofDigitChars_append, Nat.ofDigitChars_replicate_zero]
  rfl

theorem ofDigits_zeros_append (count : Nat) (digits : List Char) :
    ofDigits (List.replicate count '0' ++ digits) = ofDigits digits := by
  rw [ofDigits, Nat.ofDigitChars_append, Nat.ofDigitChars_replicate_zero, Nat.mul_zero]
  rfl

/-- Only zeros are dropped from the end. -/
theorem exists_zeros (digits : List Char) : ∃ count,
    (digits.reverse.dropWhile (· == '0')).reverse ++ List.replicate count '0' = digits := by
  have zeros : digits.reverse.takeWhile (· == '0') =
      List.replicate (digits.reverse.takeWhile (· == '0')).length '0' := by
    refine List.eq_replicate_iff.mpr ⟨rfl, fun c member => ?_⟩
    simpa using List.all_eq_true.mp List.all_takeWhile c member
  refine ⟨(digits.reverse.takeWhile (· == '0')).length, ?_⟩
  rw [← List.reverse_replicate, ← zeros, ← List.reverse_append, List.takeWhile_append_dropWhile,
    List.reverse_reverse]

namespace Decimal

/-- The parts of a positional text with places after the point. -/
structure Parts (coefficient places : Nat) (whole fraction : List Char) (zeros : Nat) : Prop where
  digits : Digits whole
  all : ∀ c ∈ fraction, isDigit c = true
  length : fraction.length + zeros = places
  value : 10 ^ zeros * ofDigits (whole ++ fraction) = coefficient

theorem exists_parts (coefficient places : Nat) (some_place : 0 < places) :
    ∃ whole fraction zeros, Parts coefficient places whole fraction zeros ∧
      positional coefficient (-(places : Int)) = if fraction = [] then whole else whole ++ '.' :: fraction := by
  have digits := digits_toDigits coefficient
  have isNegative : ¬ (0 : Int) ≤ -(places : Int) := by omega
  have samePlaces : (- -(places : Int)).toNat = places := by omega
  unfold positional
  rw [if_neg isNegative, samePlaces]
  dsimp only
  generalize isPadded :
    List.replicate (places + 1 - (toDigits coefficient).length) '0' ++ toDigits coefficient = padded
  have long : places < padded.length := by
    rw [← isPadded, List.length_append, List.length_replicate]
    omega
  have allDigits : ∀ c ∈ padded, isDigit c = true := by
    rw [← isPadded]
    refine List.forall_mem_append.mpr ⟨fun c member => ?_, digits.2⟩
    rw [List.eq_of_mem_replicate member]
    decide
  have sameValue : ofDigits padded = coefficient := by
    rw [← isPadded, ofDigits_zeros_append, ofDigits_toDigits]
  have halves := List.take_append_drop (padded.length - places) padded
  obtain ⟨zeros, ends⟩ := exists_zeros (padded.drop (padded.length - places))
  refine ⟨_, _, zeros, ⟨⟨?_, ?_⟩, ?_, ?_, ?_⟩, rfl⟩
  · intro isEmpty
    have taken := congrArg List.length isEmpty
    rw [List.length_take, List.length_nil] at taken
    omega
  · exact fun c member => allDigits c (List.mem_of_mem_take member)
  · intro c member
    refine allDigits c (List.mem_of_mem_drop (i := padded.length - places) ?_)
    rw [← ends]
    exact List.mem_append_left _ member
  · have dropped := congrArg List.length ends
    rw [List.length_append, List.length_replicate, List.length_drop] at dropped
    omega
  · rw [← ofDigits_append_zeros, List.append_assoc, ends, halves, sameValue]

/-- The text of a decimal fraction is a numeral. -/
theorem numeral_positional (coefficient : Nat) (exponent : Int) : Numeral (positional coefficient exponent) := by
  have digits := digits_toDigits coefficient
  by_cases negative : exponent < 0
  · obtain ⟨places, rfl⟩ : ∃ places : Nat, exponent = -(places : Int) := ⟨exponent.natAbs, by omega⟩
    obtain ⟨whole, fraction, zeros, parts, same⟩ := exists_parts coefficient places (by omega)
    rw [same]
    split
    · exact .whole parts.digits
    · rename_i nonempty
      exact .fraction parts.digits ⟨nonempty, parts.all⟩
  · unfold positional
    rw [if_pos (by omega)]
    refine .whole ⟨fun isEmpty => digits.1 (List.append_eq_nil_iff.mp isEmpty).1, ?_⟩
    refine List.forall_mem_append.mpr ⟨digits.2, fun c member => ?_⟩
    rw [List.eq_of_mem_replicate member]
    decide

/-- A positional text is read as its digits with the places after the point. -/
theorem Parts.read? {coefficient places zeros : Nat} {whole fraction : List Char}
    (parts : Parts coefficient places whole fraction zeros) :
    Decimal.read? (if fraction = [] then whole else whole ++ '.' :: fraction) =
      some ⟨false, ofDigits (whole ++ fraction), -(fraction.length : Int)⟩ := by
  split
  · rename_i isEmpty
    rw [read?_digits parts.digits, isEmpty, List.append_nil]
    rfl
  · exact read?_fraction parts.digits parts.all

/-- A minus in front of a number only changes its sign. -/
theorem read?_minus {text : List Char} {coefficient : Nat} {exponent : Int}
    (unsigned : splitSign text = (false, text)) (read : read? text = some ⟨false, coefficient, exponent⟩) :
    read? ('-' :: text) = some ⟨true, coefficient, exponent⟩ := by
  have signed : splitSign ('-' :: text) = (true, text) := rfl
  rw [read?, unsigned] at read
  rw [read?, signed]
  dsimp only at read ⊢
  cases digits : readDigits? text with
  | none =>
      rw [digits] at read
      cases read
  | some found =>
      obtain ⟨value, shift, rest⟩ := found
      rw [digits] at read
      rw [Option.bind_some] at read ⊢
      cases power : readPower? rest with
      | none =>
          rw [power] at read
          cases read
      | some power =>
          simp_all

end Decimal

theorem Numeral.splitSign {text : List Char} (numeral : Numeral text) : splitSign text = (false, text) := by
  cases numeral with
  | whole digits => exact digits.splitSign
  | fraction digits places =>
      rename_i whole fraction
      obtain ⟨nonempty, all⟩ := digits
      cases whole with
      | nil => exact absurd rfl nonempty
      | cons c rest => exact splitSign_of_digit (all c List.mem_cons_self)

/-! ## Texts of finite numbers -/

namespace Single

theorem numerator_lt (value : Finite) : value.numerator < 2 ^ 24 * 2 ^ 253 := by
  obtain ⟨few, small, _⟩ := value.canonical
  calc value.mantissa * 2 ^ value.exponent < 2 ^ 24 * 2 ^ value.exponent :=
        Nat.mul_lt_mul_of_pos_right few (Nat.two_pow_pos _)
    _ ≤ 2 ^ 24 * 2 ^ 253 := Nat.mul_le_mul_left _ (Nat.pow_le_pow_right (by decide) small)

/-- A finite number other than zero is at least `10 ^ (-61)`, so it does not count as zero. -/
theorem places_lt {numerator coefficient places : Nat} (positive : 0 < numerator)
    (scaled : coefficient * 2 ^ scaleBits = numerator * 10 ^ places) :
    places < (toDigits coefficient).length + 61 := by
  refine Nat.lt_of_not_le fun tiny => ?_
  have some_digit : 0 < (toDigits coefficient).length := Nat.length_toDigits_pos
  have below : coefficient < 10 ^ (places - 61) :=
    (Nat.length_toDigits_le_iff (by decide) (by omega)).mp (Nat.le_sub_of_add_le tiny)
  have split : 10 ^ places = 10 ^ 61 * 10 ^ (places - 61) := by
    rw [← Nat.pow_add, Nat.add_sub_of_le (by omega)]
  have impossible : 10 ^ 61 * 10 ^ (places - 61) < 2 ^ 149 * 10 ^ (places - 61) :=
    calc 10 ^ 61 * 10 ^ (places - 61) = 10 ^ places := split.symm
      _ ≤ numerator * 10 ^ places := Nat.le_mul_of_pos_left _ positive
      _ = coefficient * 2 ^ 149 := scaled.symm
      _ < 10 ^ (places - 61) * 2 ^ 149 := Nat.mul_lt_mul_of_pos_right below (Nat.two_pow_pos _)
      _ = 2 ^ 149 * 10 ^ (places - 61) := Nat.mul_comm _ _
  exact absurd (Nat.lt_of_mul_lt_mul_right impossible) (by decide)

/-- A finite number is below `10 ^ 40`, so it does not count as infinite. -/
theorem length_lt {numerator coefficient places : Nat} (bound : numerator < 2 ^ 24 * 2 ^ 253)
    (scaled : coefficient * 2 ^ scaleBits = numerator * 10 ^ places) :
    (toDigits coefficient).length < places + 41 := by
  refine Nat.lt_of_not_le fun huge => ?_
  have above : 10 ^ (places + 40) ≤ coefficient := by
    refine Nat.le_of_not_lt fun below => ?_
    have short : (toDigits coefficient).length ≤ places + 40 :=
      (Nat.length_toDigits_le_iff (by decide) (by omega)).mpr below
    omega
  have sizes : 2 ^ 24 * 2 ^ 253 = 2 ^ 128 * 2 ^ 149 := by decide
  have impossible : 10 ^ 40 * (10 ^ places * 2 ^ 149) < 2 ^ 128 * (10 ^ places * 2 ^ 149) :=
    calc 10 ^ 40 * (10 ^ places * 2 ^ 149) = 10 ^ (places + 40) * 2 ^ 149 := by
          rw [Nat.pow_add, ← Nat.mul_assoc, Nat.mul_comm (10 ^ 40)]
      _ ≤ coefficient * 2 ^ 149 := Nat.mul_le_mul_right _ above
      _ = numerator * 10 ^ places := scaled
      _ < 2 ^ 24 * 2 ^ 253 * 10 ^ places := Nat.mul_lt_mul_of_pos_right bound (Nat.pow_pos (by decide))
      _ = 2 ^ 128 * 2 ^ 149 * 10 ^ places := by rw [sizes]
      _ = 2 ^ 128 * (10 ^ places * 2 ^ 149) := by rw [Nat.mul_assoc, Nat.mul_comm (2 ^ 149)]
  exact absurd (Nat.lt_of_mul_lt_mul_right impossible) (by decide)

/-- Decimal digits that are all digits of a finite number denote that number. -/
theorem ofDecimal_exact (value : Finite) (nonzero : value.mantissa ≠ 0) {coefficient places zeros : Nat}
    (length : places + zeros = scaleBits)
    (same : 10 ^ zeros * coefficient = value.numerator * 5 ^ scaleBits) :
    ofDecimal ⟨value.negative, coefficient, -(places : Int)⟩ = .finite value := by
  have positive : 0 < value.numerator :=
    Nat.mul_pos (Nat.pos_of_ne_zero nonzero) (Nat.two_pow_pos _)
  have scaled : coefficient * 2 ^ scaleBits = value.numerator * 10 ^ places := by
    refine Nat.eq_of_mul_eq_mul_left (Nat.pow_pos (n := zeros) (by decide : 0 < 10)) ?_
    calc 10 ^ zeros * (coefficient * 2 ^ scaleBits)
        = value.numerator * (5 ^ scaleBits * 2 ^ scaleBits) := by rw [← Nat.mul_assoc, same, Nat.mul_assoc]
      _ = value.numerator * 10 ^ (places + zeros) := by rw [← Nat.mul_pow, length]
      _ = 10 ^ zeros * (value.numerator * 10 ^ places) := by
        rw [Nat.pow_add, ← Nat.mul_assoc, Nat.mul_comm]
  have notZero : coefficient ≠ 0 := by
    rintro rfl
    rw [Nat.zero_mul] at scaled
    have := Nat.mul_pos positive (Nat.pow_pos (n := places) (by decide : 0 < 10))
    omega
  have notTiny := places_lt positive scaled
  have notHuge := length_lt (numerator_lt value) scaled
  unfold ofDecimal
  dsimp only
  rw [if_neg (by omega), if_neg (by omega)]
  split
  · have noPlaces : places = 0 := by omega
    subst noPlaces
    refine ofFraction_eq value nonzero (by decide) ?_
    simpa using scaled
  · rw [Int.neg_neg, Int.toNat_natCast]
    exact ofFraction_eq value nonzero (Nat.pow_pos (by decide)) scaled

end Single

namespace Finite

theorem mantissa_zero {value : Finite} (zero : value.mantissa = 0) :
    value = ⟨value.negative, 0, 0, by decide⟩ := by
  obtain ⟨negative, mantissa, exponent, canonical⟩ := value
  dsimp only at zero
  subst zero
  obtain ⟨_, _, rfl | full⟩ := canonical
  · rfl
  · exact absurd full (by decide)

/-- All digits of a number together denote it. -/
theorem read?_exactText (value : Finite) (nonzero : value.mantissa ≠ 0) :
    Single.read? value.exactText = some (.finite value) := by
  obtain ⟨whole, fraction, zeros, parts, same⟩ :=
    Decimal.exists_parts (value.numerator * 5 ^ scaleBits) scaleBits (by decide)
  have denotes := Single.ofDecimal_exact value nonzero parts.length parts.value
  have numeral := Decimal.numeral_positional (value.numerator * 5 ^ scaleBits) (-scaleBits)
  have read : Decimal.read? (Decimal.positional (value.numerator * 5 ^ scaleBits) (-scaleBits)) =
      some ⟨false, ofDigits (whole ++ fraction), -(fraction.length : Int)⟩ := by
    rw [same, parts.read?]
  rw [exactText_eq, signed, Single.read?]
  cases isNegative : value.negative with
  | false =>
      rw [isNegative] at denotes
      rw [if_neg (by decide), read, ← denotes]
  | true =>
      rw [isNegative] at denotes
      rw [if_pos rfl, Decimal.read?_minus numeral.splitSign read, ← denotes]

/-- A neighbour that is taken is a positional text that denotes the number. -/
theorem neighbour?_eq_some {value : Finite} {exponent : Int} {fraction : Nat × Nat} {text : List Char}
    (found : value.neighbour? exponent fraction = some text) :
    Single.read? text = some (.finite value) ∧
      ∃ coefficient exponent, text = signed value (Decimal.positional coefficient exponent) := by
  obtain ⟨dividend, divisor⟩ := fraction
  rw [neighbour?] at found
  split at found
  · rename_i good
    cases found
    exact ⟨eq_of_beq (Bool.and_eq_true_iff.mp good).1, _, _, rfl⟩
  · split at found
    · rename_i good
      cases found
      exact ⟨eq_of_beq good, _, _, rfl⟩
    · cases found

theorem textWith?_eq_some {value : Finite} {count : Nat} {text : List Char}
    (found : value.textWith? count = some text) :
    Single.read? text = some (.finite value) ∧
      ∃ coefficient exponent, text = signed value (Decimal.positional coefficient exponent) := by
  rw [textWith?] at found
  exact neighbour?_eq_some found

/-- A text of some count of digits that reads back, or all digits. -/
theorem text_cases {value : Finite} (nonzero : value.mantissa ≠ 0) :
    value.text = value.exactText ∨ ∃ count, value.textWith? count = some value.text := by
  rw [text, if_neg nonzero]
  rcases Option.eq_none_or_eq_some ((List.range' 1 9).findSome? value.textWith?) with none_found | ⟨text, found⟩
  · exact .inl (by rw [none_found, Option.getD_none])
  · obtain ⟨count, _, isText⟩ := List.exists_of_findSome?_eq_some found
    exact .inr ⟨count, by rw [isText, found, Option.getD_some]⟩

/-- Every finite number is read back from its text. -/
theorem read?_text (value : Finite) : Single.read? value.text = some (.finite value) := by
  by_cases zero : value.mantissa = 0
  · rw [text, if_pos zero]
    obtain ⟨negative, same⟩ : ∃ negative, value = ⟨negative, 0, 0, by decide⟩ := ⟨_, mantissa_zero zero⟩
    subst same
    cases negative <;> rfl
  · rcases text_cases zero with same | ⟨count, isText⟩
    · rw [same]
      exact read?_exactText value zero
    · exact (textWith?_eq_some isText).1

/-- The text of a number is a numeral with the sign of the number in front. -/
theorem exists_numeral (value : Finite) : ∃ digits, Numeral digits ∧ value.text = signed value digits := by
  by_cases zero : value.mantissa = 0
  · refine ⟨['0'], .whole ⟨List.cons_ne_nil _ _, List.forall_mem_singleton.mpr rfl⟩, ?_⟩
    rw [text, if_pos zero]
  · rcases text_cases zero with same | ⟨count, isText⟩
    · exact ⟨_, Decimal.numeral_positional _ _, same⟩
    · obtain ⟨_, coefficient, exponent, same⟩ := textWith?_eq_some isText
      exact ⟨_, Decimal.numeral_positional coefficient exponent, same⟩

/-- The text of a number without a sign is a numeral. -/
theorem numeral_text {value : Finite} (unsigned : value.negative = false) : Numeral value.text := by
  obtain ⟨digits, numeral, same⟩ := value.exists_numeral
  rw [same, signed, unsigned]
  exact numeral

end Finite

end MissionGraph.Number
