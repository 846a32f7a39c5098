import MissionGraph.Proofs.Number.Exact
import MissionGraph.Proofs.Record.Values
import MissionGraph.Proofs.Text.Plain
import MissionGraph.Record.Ini

/-!
# Values judged by their text

What the text of a value is taken for when it is read: whole numbers, truth values and names come back,
but a name that spells a truth value comes back in small letters; other numbers come back if they are
finite.
-/

namespace MissionGraph.Ini

open Number (Single Numeral isDigit)
open Script (isName isNameStart isNamePart)

/-- The spelling in which a name comes back. -/
def respell (text : String) : String :=
  if Text.sameLetters text "true" then "true"
  else if Text.sameLetters text "false" then "false"
  else text

/-- A value after it has been written and read. -/
def reread (value : Value) : Value :=
  readValue value.text.toList

theorem toLower_respell (text : String) : (respell text).toLower = text.toLower := by
  unfold respell
  split
  · rename_i isTrue
    exact ((Text.sameLetters_iff _ _).mp isTrue).symm
  · split
    · rename_i isFalse
      exact ((Text.sameLetters_iff _ _).mp isFalse).symm
    · rfl

/-! ## Names -/

theorem splitSign_of_nameStart {c : Char} {rest : List Char} (start : isNameStart c = true) :
    Number.splitSign (c :: rest) = (false, c :: rest) := by
  unfold Number.splitSign
  split
  · rename_i same
    cases same
    exact absurd start (by decide)
  · rename_i same
    cases same
    exact absurd start (by decide)
  · rfl

theorem exists_nameStart {text : String} (named : isName text = true) :
    ∃ c rest, text.toList = c :: rest ∧ isNameStart c = true ∧ ∀ d ∈ rest, isNamePart d = true := by
  unfold isName at named
  split at named
  · cases named
  · rename_i c rest isList
    simp only [Bool.and_eq_true, List.all_eq_true] at named
    exact ⟨c, rest, isList, named.1, named.2⟩

theorem readInt32?_name {text : String} (named : isName text = true) :
    Number.readInt32? text.toList = none := by
  obtain ⟨c, rest, isList, start, _⟩ := exists_nameStart named
  have notDigit := Script.isDigit_eq_false start
  have notNat : Number.readNat? (c :: rest) = none := by
    rw [Number.readNat?, if_neg (by simp [notDigit])]
  rw [isList, Number.readInt32?, Number.readInt?, splitSign_of_nameStart start]
  simp [notNat]

/-- A name is no finite number. -/
theorem read?_name {text : String} (named : isName text = true) :
    (Single.read? text.toList).filter Single.isFinite = none := by
  obtain ⟨c, rest, isList, start, _⟩ := exists_nameStart named
  have notDigit := Script.isDigit_eq_false start
  have notDecimal : Number.Decimal.read? (c :: rest) = none := by
    have noDigits : Number.Decimal.readDigits? (c :: rest) = none := by
      unfold Number.Decimal.readDigits?
      rw [List.dropWhile_cons_of_neg (by simp [notDigit]), List.takeWhile_cons_of_neg (by simp [notDigit])]
      split
      · rename_i same
        cases same
        exact absurd start (by decide)
      · rfl
    rw [Number.Decimal.read?, splitSign_of_nameStart start]
    simp [noDigits]
  rw [isList, Single.read?, notDecimal]
  simp only
  unfold Single.readWord?
  rw [splitSign_of_nameStart start]
  dsimp only
  split
  · rfl
  · split <;> rfl

/-- A name comes back as a name or as the truth value that it spells. -/
theorem name?_reread {text : String} (named : isName text = true) :
    (reread (.name text)).name? = some (respell text) := by
  rw [reread, Value.text, readValue, readInt32?_name named]
  simp only
  rw [read?_name named]
  simp only
  rw [String.ofList_toList, respell]
  split
  · rfl
  · split <;> rfl

/-! ## Numbers -/

theorem readInt?_fraction {whole fraction : List Char} (digits : Number.Digits whole) :
    Number.readInt? (whole ++ '.' :: fraction) = none := by
  have unsigned : Number.splitSign (whole ++ '.' :: fraction) = (false, whole ++ '.' :: fraction) := by
    obtain ⟨nonempty, all⟩ := digits
    cases whole with
    | nil => exact absurd rfl nonempty
    | cons c rest => exact Number.splitSign_of_digit (all c List.mem_cons_self)
  have notNat : Number.readNat? (whole ++ '.' :: fraction) = none := by
    refine if_neg fun ⟨_, all⟩ => ?_
    have isDigit := List.all_eq_true.mp all '.' (by simp)
    exact absurd isDigit (by decide)
  rw [Number.readInt?, unsigned]
  simp [notNat]

/-- A whole number of 32 bits is the same as an integer and as a number with a fraction. -/
theorem ofInt_eq_ofDecimal {value : Int32} {text : List Char} (digits : Number.Digits text)
    (read : Number.readInt32? text = some value) :
    Single.ofInt value.toInt = Single.ofDecimal ⟨false, Number.ofDigits text, 0⟩ := by
  rw [Number.readInt32?, digits.readInt?, Option.bind_some, Number.ofInt?] at read
  split at read
  · rename_i inRange
    cases read
    have small : Number.ofDigits text < 10 ^ 10 := by
      have high := inRange.2
      rw [Int32.toInt_maxValue] at high
      omega
    have few : (Number.toDigits (Number.ofDigits text)).length ≤ 10 :=
      (Nat.length_toDigits_le_iff (by decide) (by decide)).mpr small
    rw [Int32.toInt_ofInt_of_le]
    · unfold Single.ofInt Single.ofDecimal
      dsimp only
      rw [Int.natAbs_natCast, decide_eq_false (by omega : ¬ (Number.ofDigits text : Int) < 0)]
      split
      · rename_i zero
        rcases zero with zero | tiny
        · rw [zero]
        · omega
      · rw [if_neg (by omega), if_pos (by omega)]
        simp
    · omega
    · have high := inRange.2
      rw [Int32.toInt_maxValue] at high
      omega
  · cases read

/-- A finite number without a sign comes back. -/
theorem float?_readValue {value : Number.Finite} (unsigned : value.negative = false) :
    (readValue value.text).float? = some (.finite value) := by
  have back := value.read?_text
  have numeral := Number.Finite.numeral_text unsigned
  rw [readValue]
  cases whole : Number.readInt32? value.text with
  | none =>
      rw [back]
      rfl
  | some integer =>
      generalize value.text = text at back numeral whole
      cases numeral with
      | whole digits =>
          rw [Single.read?, Number.Decimal.read?_digits digits] at back
          simp only [Value.float?]
          rw [ofInt_eq_ofDecimal digits whole]
          exact back
      | fraction digits places =>
          rw [Number.readInt32?, readInt?_fraction digits] at whole
          cases whole

/-- Exactly the finite ones among the numbers without a sign come back; the others are no numbers. -/
theorem float?_reread {value : Single} (unsigned : value.unsigned = true) :
    (reread (.float value)).float? = if value.isFinite then some value else none := by
  cases value with
  | finite value =>
      have noSign : value.negative = false := by simpa [Single.unsigned] using unsigned
      rw [reread, Value.text, Single.text, String.toList_ofList]
      exact float?_readValue noSign
  | infinite negative =>
      have noSign : negative = false := by simpa [Single.unsigned] using unsigned
      subst noSign
      decide +kernel
  | undefined => cases unsigned

theorem rereads_reread : Rereads reread respell where
  int := fun value => by
    rw [reread, Value.text, readValue, Number.readInt32?_intText]
  bool := fun value => by
    cases value <;> decide +kernel
  name := fun _ named => name?_reread named
  letters := toLower_respell

end MissionGraph.Ini
