import MissionGraph.Number.Decimal

/-!
# Numbers written with digits

What texts of digits denote when they are read as integers or as numbers with a fraction, and that
integers are read back from their texts.
-/

namespace MissionGraph.Number

variable {text whole fraction : List Char}

/-- The text is not empty and has digits only. -/
def Digits (text : List Char) : Prop :=
  text ≠ [] ∧ ∀ c ∈ text, isDigit c = true

theorem isDigit_eq (c : Char) : isDigit c = c.isDigit := by
  rfl

theorem digits_toDigits (n : Nat) : Digits (toDigits n) :=
  ⟨Nat.toDigits_ne_nil, fun c member => by
    rw [isDigit_eq]
    exact Nat.isDigit_of_mem_toDigits (by decide) (by decide) member⟩

/-- A text that starts with a digit has no sign. -/
theorem splitSign_of_digit {c : Char} {rest : List Char} (digit : isDigit c = true) :
    splitSign (c :: rest) = (false, c :: rest) := by
  unfold splitSign
  split
  · rename_i same
    cases same
    exact absurd digit (by decide)
  · rename_i same
    cases same
    exact absurd digit (by decide)
  · rfl

theorem Digits.splitSign (digits : Digits text) : splitSign text = (false, text) := by
  obtain ⟨nonempty, all⟩ := digits
  cases text with
  | nil => exact absurd rfl nonempty
  | cons c rest => exact splitSign_of_digit (all c List.mem_cons_self)

theorem Digits.readNat? (digits : Digits text) : readNat? text = some (ofDigits text) := by
  rw [Number.readNat?, if_pos ⟨digits.1, List.all_eq_true.mpr digits.2⟩]

theorem Digits.readInt? (digits : Digits text) : readInt? text = some (ofDigits text : Int) := by
  rw [Number.readInt?, digits.splitSign]
  simp [digits.readNat?]

/-- An integer without a sign is not negative. -/
theorem toInt_nonneg_of_readInt32? (digits : Digits text) {value : Int32}
    (found : readInt32? text = some value) : 0 ≤ value.toInt := by
  rw [readInt32?, digits.readInt?] at found
  simp only [Option.bind_some, ofInt?] at found
  split at found
  · rename_i inRange
    cases found
    rw [Int32.toInt_ofInt_of_le]
    · exact Int.natCast_nonneg _
    · exact Int.le_trans (by decide) (Int.natCast_nonneg _)
    · exact Int.lt_of_le_of_lt inRange.2 (by decide)
  · cases found

/-- A 32-bit integer fits into 32 bits. -/
theorem ofInt?_toInt (value : Int32) : ofInt? value.toInt = some value := by
  have low := value.le_toInt
  have high := value.toInt_lt
  have inRange : Int32.minValue.toInt ≤ value.toInt ∧ value.toInt ≤ Int32.maxValue.toInt := by
    rw [Int32.toInt_minValue, Int32.toInt_maxValue]
    omega
  rw [ofInt?, if_pos inRange, Int32.ofInt_toInt]

theorem toList_intText (value : Int) :
    (intText value).toList = if value < 0 then '-' :: toDigits value.natAbs else toDigits value.natAbs := by
  unfold intText
  split
  · simp [Nat.repr, toDigits]
  · simp [Nat.repr, toDigits]

/-- Every integer is read back from its text. -/
theorem readInt?_intText (value : Int) : readInt? (intText value).toList = some value := by
  rw [toList_intText]
  split
  · rename_i negative
    have digits := digits_toDigits value.natAbs
    have same : -(value.natAbs : Int) = value := by omega
    simp only [readInt?, Number.splitSign, digits.readNat?, ofDigits_toDigits, Option.bind_eq_bind,
      Option.bind_some, Option.pure_def, Option.map_some, same]
  · rename_i nonnegative
    rw [(digits_toDigits value.natAbs).readInt?, ofDigits_toDigits]
    simp only [Option.some.injEq]
    omega

/-- Every 32-bit integer is read back from its text. -/
theorem readInt32?_intText (value : Int32) : readInt32? (intText value.toInt).toList = some value := by
  rw [readInt32?, readInt?_intText, Option.bind_some, ofInt?_toInt]

/-! ## Numbers with a fraction -/

theorem dropWhile_digits (all : ∀ c ∈ text, isDigit c = true) : text.dropWhile isDigit = [] := by
  rw [← List.append_nil text, List.dropWhile_append_of_pos all, List.dropWhile_nil]

theorem takeWhile_digits (all : ∀ c ∈ text, isDigit c = true) : text.takeWhile isDigit = text := by
  rw [← List.append_nil text, List.takeWhile_append_of_pos all, List.takeWhile_nil]

namespace Decimal

theorem read?_digits (digits : Digits text) : read? text = some ⟨false, ofDigits text, 0⟩ := by
  have inner : readDigits? text = some (ofDigits text, 0, []) := by
    rw [readDigits?, takeWhile_digits digits.2, dropWhile_digits digits.2]
    simp [digits.1]
  rw [read?, digits.splitSign]
  simp [inner, readPower?]

theorem read?_fraction (digits : Digits whole) (all : ∀ c ∈ fraction, isDigit c = true) :
    read? (whole ++ '.' :: fraction) = some ⟨false, ofDigits (whole ++ fraction), -(fraction.length : Int)⟩ := by
  have taken : (whole ++ '.' :: fraction).takeWhile isDigit = whole := by
    rw [List.takeWhile_append_of_pos digits.2, List.takeWhile_cons_of_neg (by decide), List.append_nil]
  have dropped : (whole ++ '.' :: fraction).dropWhile isDigit = '.' :: fraction := by
    rw [List.dropWhile_append_of_pos digits.2, List.dropWhile_cons_of_neg (by decide)]
  have inner : readDigits? (whole ++ '.' :: fraction) =
      some (ofDigits (whole ++ fraction), -(fraction.length : Int), []) := by
    rw [readDigits?, taken, dropped]
    simp [digits.1, takeWhile_digits all, dropWhile_digits all]
  have unsigned : splitSign (whole ++ '.' :: fraction) = (false, whole ++ '.' :: fraction) := by
    obtain ⟨nonempty, allWhole⟩ := digits
    cases whole with
    | nil => exact absurd rfl nonempty
    | cons c rest => exact splitSign_of_digit (allWhole c List.mem_cons_self)
  rw [read?, unsigned]
  simp [inner, readPower?]

end Decimal

end MissionGraph.Number
