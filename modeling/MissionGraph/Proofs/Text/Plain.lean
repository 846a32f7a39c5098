import MissionGraph.Proofs.Number.Digits
import MissionGraph.Script.Scanner
import MissionGraph.Text.Lines

/-!
# Plain texts

Names and numbers consist of letters, digits, underscores, points and signs. No such character is blank
or a mark that divides a line, so a plain text survives being put into a line and cut out of it.
-/

namespace MissionGraph

namespace Script

open Number (isDigit)

theorem isDigit_iff (c : Char) : isDigit c = true ↔ 48 ≤ c.toNat ∧ c.toNat ≤ 57 := by
  rw [isDigit, Bool.and_eq_true, decide_eq_true_eq, decide_eq_true_eq]
  exact Iff.rfl

theorem isNameStart_iff (c : Char) : isNameStart c = true ↔
    (65 ≤ c.toNat ∧ c.toNat ≤ 90) ∨ c.toNat = 95 ∨ (97 ≤ c.toNat ∧ c.toNat ≤ 122) := by
  have underscore : c = '_' ↔ c.toNat = 95 :=
    ⟨fun same => same ▸ rfl, fun same => Char.toNat_inj.mp same⟩
  unfold isNameStart Char.isAlpha Char.isUpper Char.isLower
  simp only [ge_iff_le, UInt32.le_iff_toNat_le, Bool.or_eq_true, Bool.and_eq_true, decide_eq_true_eq, beq_iff_eq,
    underscore, Char.toNat_val, Char.reduceVal, UInt32.reduceToNat]
  omega

theorem isNamePart_eq (c : Char) : isNamePart c = (isNameStart c || isDigit c) := by
  rw [isNamePart, isNameStart, Char.isAlphanum, Number.isDigit_eq, Bool.or_right_comm]

theorem isNamePart_iff (c : Char) : isNamePart c = true ↔
    (48 ≤ c.toNat ∧ c.toNat ≤ 57) ∨ (65 ≤ c.toNat ∧ c.toNat ≤ 90) ∨ c.toNat = 95 ∨
      (97 ≤ c.toNat ∧ c.toNat ≤ 122) := by
  rw [isNamePart_eq, Bool.or_eq_true, isNameStart_iff, isDigit_iff]
  exact or_comm

theorem isNamePart_of_isNameStart {c : Char} (start : isNameStart c = true) : isNamePart c = true := by
  rw [isNamePart_eq, start, Bool.true_or]

theorem isNamePart_of_isDigit {c : Char} (digit : isDigit c = true) : isNamePart c = true := by
  rw [isNamePart_eq, digit, Bool.or_true]

theorem isDigit_eq_false {c : Char} (start : isNameStart c = true) : isDigit c = false := by
  cases digit : isDigit c with
  | false => rfl
  | true =>
      have letter := (isNameStart_iff c).mp start
      have range := (isDigit_iff c).mp digit
      omega

end Script

namespace Text

open Script (isNamePart isNameStart)

/-- The characters of names and numbers. -/
def isPlain (c : Char) : Bool :=
  isNamePart c || c == '.' || c == '-'

/-- A text of at least one character, all of them plain. -/
def Plain (text : List Char) : Prop :=
  text ≠ [] ∧ ∀ c ∈ text, isPlain c = true

instance (text : List Char) : Decidable (Plain text) :=
  decidable_of_iff (text.isEmpty = false ∧ text.all isPlain = true)
    (by rw [Plain, List.isEmpty_eq_false_iff, List.all_eq_true])

theorem code_of_isPlain {c : Char} (plain : isPlain c = true) :
    (45 ≤ c.toNat ∧ c.toNat ≤ 46) ∨ (48 ≤ c.toNat ∧ c.toNat ≤ 57) ∨ (65 ≤ c.toNat ∧ c.toNat ≤ 90) ∨
      c.toNat = 95 ∨ (97 ≤ c.toNat ∧ c.toNat ≤ 122) := by
  simp only [isPlain, Bool.or_eq_true, beq_iff_eq] at plain
  rcases plain with (part | rfl) | rfl
  · exact .inr ((Script.isNamePart_iff c).mp part)
  · exact .inl (by decide)
  · exact .inl (by decide)

theorem isBlank_of_isPlain {c : Char} (plain : isPlain c = true) : isBlank c = false := by
  have code := code_of_isPlain plain
  simp only [isBlank, blankRanges, List.any_cons, List.any_nil, Bool.or_false, Bool.or_eq_false_iff,
    Bool.and_eq_false_iff, decide_eq_false_iff_not]
  omega

theorem isPlain_of_isNamePart {c : Char} (part : isNamePart c = true) : isPlain c = true := by
  simp [isPlain, part]

theorem isPlain_of_isNameStart {c : Char} (start : isNameStart c = true) : isPlain c = true :=
  isPlain_of_isNamePart (Script.isNamePart_of_isNameStart start)

theorem isPlain_of_isDigit {c : Char} (digit : Number.isDigit c = true) : isPlain c = true :=
  isPlain_of_isNamePart (Script.isNamePart_of_isDigit digit)

/-- A mark that is not plain does not occur in a plain text. -/
theorem Plain.not_mem {text : List Char} (plain : Plain text) {mark : Char} (notPlain : isPlain mark = false) :
    mark ∉ text := by
  intro member
  have isPlain := plain.2 mark member
  rw [notPlain] at isPlain
  cases isPlain

/-! ## Trimming and cutting -/

theorem trimStart_cons {c : Char} {rest : List Char} (visible : isBlank c = false) :
    trimStart (c :: rest) = c :: rest := by
  rw [trimStart, List.dropWhile_cons_of_neg (by simp [visible])]

theorem trimEnd_concat {c : Char} {text : List Char} (visible : isBlank c = false) :
    trimEnd (text ++ [c]) = text ++ [c] := by
  rw [trimEnd, List.reverse_append, List.reverse_singleton, List.singleton_append,
    List.dropWhile_cons_of_neg (by simp [visible]), List.reverse_cons, List.reverse_reverse]

/-- A text that starts and ends with visible characters. -/
structure Framed (text : List Char) : Prop where
  starts : ∃ c rest, text = c :: rest ∧ isBlank c = false
  ends : ∃ rest c, text = rest ++ [c] ∧ isBlank c = false

instance (text : List Char) : Decidable (Framed text) :=
  decidable_of_iff (text.head?.any (!isBlank ·) = true ∧ text.getLast?.any (!isBlank ·) = true) <| by
    simp only [Option.any_eq_true, Bool.not_eq_true', List.head?_eq_some_iff, List.getLast?_eq_some_iff]
    constructor
    · rintro ⟨⟨first, ⟨rest, starts⟩, visible⟩, last, ⟨before, ends⟩, visibleLast⟩
      exact ⟨⟨first, rest, starts, visible⟩, ⟨before, last, ends, visibleLast⟩⟩
    · rintro ⟨⟨first, rest, starts, visible⟩, before, last, ends, visibleLast⟩
      exact ⟨⟨first, ⟨rest, starts⟩, visible⟩, last, ⟨before, ends⟩, visibleLast⟩

theorem Framed.trim {text : List Char} (framed : Framed text) : trim text = text := by
  obtain ⟨c, rest, rfl, first⟩ := framed.starts
  obtain ⟨before, last, same, visible⟩ := framed.ends
  rw [Text.trim, trimStart_cons first, same, trimEnd_concat visible]

theorem Framed.ne_nil {text : List Char} (framed : Framed text) : text ≠ [] := by
  obtain ⟨c, rest, rfl, _⟩ := framed.starts
  exact List.cons_ne_nil _ _

theorem Framed.append {first last : List Char} (starts : Framed first) (ends : Framed last)
    (middle : List Char) : Framed (first ++ (middle ++ last)) := by
  obtain ⟨c, rest, rfl, visible⟩ := starts.starts
  obtain ⟨before, d, rfl, visibleLast⟩ := ends.ends
  refine ⟨⟨c, _, rfl, visible⟩, ⟨c :: rest ++ (middle ++ before), d, ?_, visibleLast⟩⟩
  simp only [List.append_assoc]

theorem Plain.framed {text : List Char} (plain : Plain text) : Framed text := by
  obtain ⟨nonempty, all⟩ := plain
  constructor
  · cases text with
    | nil => exact absurd rfl nonempty
    | cons c rest => exact ⟨c, rest, rfl, isBlank_of_isPlain (all c List.mem_cons_self)⟩
  · refine ⟨text.dropLast, text.getLast nonempty, (List.dropLast_concat_getLast nonempty).symm, ?_⟩
    exact isBlank_of_isPlain (all _ (List.getLast_mem nonempty))

theorem trim_space_cons {text : List Char} (framed : Framed text) : trim (' ' :: text) = text := by
  have trimmed := framed.trim
  have blank : trimStart (' ' :: text) = trimStart text := by
    rw [trimStart, List.dropWhile_cons_of_pos (by decide), trimStart]
  rwa [trim, blank]

theorem trim_concat_space {text : List Char} (framed : Framed text) : trim (text ++ [' ']) = text := by
  obtain ⟨c, rest, rfl, visible⟩ := framed.starts
  obtain ⟨before, last, same, visibleLast⟩ := framed.ends
  rw [List.cons_append, trim, trimStart_cons visible, ← List.cons_append, trimEnd, List.reverse_append,
    List.reverse_singleton, List.singleton_append, List.dropWhile_cons_of_pos (by decide)]
  rw [same, List.reverse_append, List.reverse_singleton, List.singleton_append,
    List.dropWhile_cons_of_neg (by simp [visibleLast]), List.reverse_cons, List.reverse_reverse]

theorem before_of_not_mem {mark : Char} {text : List Char} (absent : mark ∉ text) : before mark text = text := by
  have others : ∀ c ∈ text, (c != mark) = true := fun c member =>
    bne_iff_ne.mpr fun same => absent (same ▸ member)
  rw [before, ← List.append_nil text, List.takeWhile_append_of_pos others, List.takeWhile_nil]

theorem cut?_append {mark : Char} {first rest : List Char} (absent : mark ∉ first) :
    cut? mark (first ++ mark :: rest) = some (first, rest) := by
  have others : ∀ c ∈ first, (c != mark) = true := fun c member =>
    bne_iff_ne.mpr fun same => absent (same ▸ member)
  rw [cut?, List.dropWhile_append_of_pos others, List.dropWhile_cons_of_neg (by simp), before,
    List.takeWhile_append_of_pos others, List.takeWhile_cons_of_neg (by simp), List.append_nil]

theorem inside?_brackets (opening closing : Char) (text : List Char) :
    inside? opening closing (opening :: (text ++ [closing])) = some text := by
  rw [inside?, if_pos rfl, List.reverse_append, List.reverse_singleton, List.singleton_append]
  simp

theorem inside?_of_ne {opening closing c : Char} {rest : List Char} (different : c ≠ opening) :
    inside? opening closing (c :: rest) = none := by
  rw [inside?, if_neg different]

/-! ## Lines -/

/-- The first line of a text ends at the first line feed. -/
theorem lines_append_feed {text : List Char} (absent : '\n' ∉ text) (rest : List Char) :
    lines (text ++ '\n' :: rest) = text :: lines rest := by
  induction text with
  | nil => rw [List.nil_append, lines, if_pos rfl]
  | cons c others ih =>
      rw [List.mem_cons, not_or] at absent
      rw [List.cons_append, lines, if_neg fun same => absent.1 same.symm, ih absent.2]

/-- Lines with a line feed after each are read back as lines. -/
theorem lines_flatMap {texts : List (List Char)} (single : ∀ text ∈ texts, '\n' ∉ text) :
    lines (texts.flatMap fun text => text ++ ['\n']) = texts := by
  induction texts with
  | nil => rfl
  | cons text others ih =>
      rw [List.flatMap_cons, List.append_assoc, List.singleton_append,
        lines_append_feed (single text List.mem_cons_self),
        ih fun other member => single other (List.mem_cons_of_mem _ member)]

end Text

end MissionGraph
