import MissionGraph.Proofs.Script.Coverage
import MissionGraph.Script.Diagnostic

/-!
# The line that a message is about

A place in a text lies in one of its lines. A message about the place is shown beside a mark below that line, in which
the carriage returns at the end are left out. There is no such line at the end of a text that is empty or ends in a
line feed, and then the message is not shown.
-/

namespace MissionGraph

namespace Text

/-! ## Lines -/

theorem not_of_head?_dropWhile {test : Char → Bool} {text : List Char} :
    ∀ c ∈ (text.dropWhile test).head?, test c = false := by
  intro c first
  obtain ⟨rest, left⟩ := List.head?_eq_some_iff.mp first
  exact Search.not_of_dropWhile_eq_cons left

/-- A text can be split before the last run of characters that pass a test. -/
theorem split_last_run (test : Char → Bool) (text : List Char) :
    text = (text.reverse.dropWhile test).reverse ++ (text.reverse.takeWhile test).reverse ∧
      (∀ c ∈ (text.reverse.dropWhile test).reverse.getLast?, test c = false) ∧
      ∀ c ∈ (text.reverse.takeWhile test).reverse, test c = true := by
  refine ⟨?_, ?_, fun c member => ?_⟩
  · rw [← List.reverse_append, List.takeWhile_append_dropWhile, List.reverse_reverse]
  · rw [List.getLast?_reverse]
    exact not_of_head?_dropWhile
  · exact List.all_eq_true.mp List.all_takeWhile c (List.mem_reverse.mp member)

/-- The text is empty or ends in a line feed. -/
def EndsLine (text : List Char) : Prop :=
  ∀ c ∈ text.getLast?, c = '\n'

theorem EndsLine.tail {c : Char} {text : List Char} (ends : EndsLine (c :: text)) : EndsLine text := by
  cases text with
  | nil => rintro _ ⟨⟩
  | cons d rest => rwa [EndsLine, List.getLast?_cons_cons] at ends

/-- Behind lines that are ended, the next line has the number of their line feeds. -/
theorem getElem?_lines_append {earlier : List Char} (ends : EndsLine earlier) (rest : List Char) :
    (lines (earlier ++ rest))[earlier.count '\n']? = (lines rest).head? := by
  induction earlier with
  | nil => exact List.head?_eq_getElem?.symm
  | cons c others ih =>
      rw [List.cons_append, lines]
      split
      · rename_i isFeed
        rw [isFeed, List.count_cons_self, List.getElem?_cons_succ, ih ends.tail]
      · rename_i inLine
        -- a character that ends no line is followed by a line feed, and the line that it stands in is not the last
        obtain ⟨count, more⟩ : ∃ count, others.count '\n' = count + 1 := by
          refine Nat.exists_eq_add_one.mpr (List.count_pos_iff.mpr ?_)
          cases others with
          | nil => exact absurd (ends c rfl) inLine
          | cons d rest =>
              rw [← ends.tail _ (List.getLast?_eq_some_getLast (List.cons_ne_nil d rest))]
              exact List.getLast_mem _
        rw [List.count_cons_of_ne inLine, ← ih ends.tail, more]
        cases lines (others ++ rest) <;> rfl

theorem lines_eq_singleton {line : List Char} (single : '\n' ∉ line) (nonempty : line ≠ []) : lines line = [line] := by
  induction line with
  | nil => exact absurd rfl nonempty
  | cons c others ih =>
      rw [List.mem_cons, not_or] at single
      rw [lines, if_neg fun same => single.1 same.symm]
      cases others with
      | nil => rfl
      | cons d rest => rw [ih single.2 (List.cons_ne_nil d rest)]

theorem head?_lines_append {line later : List Char} (single : '\n' ∉ line) (ends : ∀ c ∈ later.head?, c = '\n')
    (nonempty : line ++ later ≠ []) : (lines (line ++ later)).head? = some line := by
  cases later with
  | nil =>
      rw [List.append_nil] at nonempty ⊢
      rw [lines_eq_singleton single nonempty]
      rfl
  | cons c rest =>
      rw [ends c rfl, lines_append_feed single]
      rfl

end Text

namespace Script

open Text (EndsLine)

/-! ## Places -/

/-- A place in a text: the lines before it, what stands to its left and to its right in its own line, and the text from
the end of that line on. -/
structure Around (earlier left right later : List Char) (pos : Pos) : Prop where
  ended : EndsLine earlier
  leftSingle : '\n' ∉ left
  rightSingle : '\n' ∉ right
  stops : ∀ c ∈ later.head?, c = '\n'
  line : pos.line = earlier.count '\n' + 1
  column : pos.column = left.length + 1

/-- The end of a text lies in its last line. -/
theorem exists_last_line (before : List Char) :
    ∃ earlier left, before = earlier ++ left ∧ EndsLine earlier ∧ '\n' ∉ left ∧
      (Pos.start.after before).line = earlier.count '\n' + 1 ∧ (Pos.start.after before).column = left.length + 1 := by
  obtain ⟨line, column⟩ := isPlaceAfter_after before
  obtain ⟨whole, last, only⟩ := Text.split_last_run (· != '\n') before
  have single : '\n' ∉ (before.reverse.takeWhile (· != '\n')).reverse := fun member => by simpa using only _ member
  refine ⟨_, _, whole, fun c isLast => by simpa using last c isLast, single, ?_, by rw [column, List.length_reverse]⟩
  rw [line]
  conv_lhs => rw [whole, List.count_append, List.count_eq_zero.mpr single]

/-- Every place in a text lies in one of its lines. -/
theorem exists_around (before after : List Char) :
    ∃ earlier left right later, before = earlier ++ left ∧ after = right ++ later ∧
      Around earlier left right later (Pos.start.after before) := by
  obtain ⟨earlier, left, isBefore, ends, single, line, column⟩ := exists_last_line before
  refine ⟨earlier, left, after.takeWhile (· != '\n'), after.dropWhile (· != '\n'), isBefore,
    List.takeWhile_append_dropWhile.symm, ends, single, fun member => ?_, fun c first => ?_, line, column⟩
  · simpa using List.all_eq_true.mp List.all_takeWhile _ member
  · simpa using Text.not_of_head?_dropWhile c first

/-- The place is behind the last line feed of a text that ends in one. -/
def PastEnd (text : List Char) (pos : Pos) : Prop :=
  text.getLast? = some '\n' ∧ pos.line = text.count '\n' + 1

theorem Around.pastEnd_iff {earlier left right later : List Char} {pos : Pos}
    (around : Around earlier left right later pos) (nonempty : earlier ++ (left ++ right ++ later) ≠ []) :
    PastEnd (earlier ++ (left ++ right ++ later)) pos ↔ left ++ right ++ later = [] := by
  constructor
  · rintro ⟨last, line⟩
    have none_after : '\n' ∉ left ++ right ++ later := by
      rw [around.line, List.count_append] at line
      exact List.count_eq_zero.mp (by omega)
    by_contra something
    rw [List.getLast?_append, List.getLast?_eq_some_getLast something] at last
    exact none_after (Option.some.inj last ▸ List.getLast_mem something)
  · intro nothing
    rw [nothing, List.append_nil] at nonempty ⊢
    have last := List.getLast?_eq_some_getLast nonempty
    exact ⟨around.ended _ last ▸ last, around.line⟩

/-! ## Excerpts -/

/-- The line of a text with this number, counted from 1, without the carriage returns at its end. -/
def IsLine (text : List Char) (number : Nat) (line returns : List Char) : Prop :=
  ∃ earlier later, text = earlier ++ (line ++ returns ++ later) ∧ EndsLine earlier ∧ '\n' ∉ line ∧
    (∀ c ∈ line.getLast?, c ≠ '\r') ∧ (∀ c ∈ returns, c = '\r') ∧ (∀ c ∈ later.head?, c = '\n') ∧
    number = earlier.count '\n' + 1

/-- The excerpt shows a line and marks a place in it. If the place is not at a character of the line, the mark is at its
end, where a blank is added. -/
structure Marks (line : List Char) (pos : Pos) (excerpt : Excerpt) : Prop where
  number : excerpt.line = pos.line
  inside : pos.column ≤ line.length → excerpt.text = line ∧ excerpt.mark + 1 = pos.column
  atEnd : line.length < pos.column → excerpt.text = line ++ [' '] ∧ excerpt.mark = line.length

theorem marks_ofLine {pos : Pos} (counted : 0 < pos.column) (line : List Char) :
    Marks (Excerpt.trimReturns line) pos (.ofLine pos.line pos.column line) where
  number := rfl
  inside within := by
    have short : pos.column - 1 < (Excerpt.trimReturns line).length := by omega
    rw [Excerpt.ofLine, Nat.min_eq_left (Nat.le_of_lt short), if_neg (Nat.ne_of_lt short)]
    exact ⟨rfl, Nat.sub_add_cancel counted⟩
  atEnd past := by
    have long : (Excerpt.trimReturns line).length ≤ pos.column - 1 := by omega
    rw [Excerpt.ofLine, Nat.min_eq_right long, if_pos rfl]
    exact ⟨rfl, rfl⟩

theorem trimReturns_append (line : List Char) :
    ∃ returns, line = Excerpt.trimReturns line ++ returns ∧ (∀ c ∈ (Excerpt.trimReturns line).getLast?, c ≠ '\r') ∧
      ∀ c ∈ returns, c = '\r' := by
  obtain ⟨whole, last, only⟩ := Text.split_last_run (· == '\r') line
  exact ⟨_, whole, fun c isLast => by simpa using last c isLast, fun c member => by simpa using only c member⟩

theorem Around.isLine {earlier left right later : List Char} {pos : Pos}
    (around : Around earlier left right later pos) :
    ∃ returns, IsLine (earlier ++ (left ++ right ++ later)) pos.line (Excerpt.trimReturns (left ++ right)) returns := by
  obtain ⟨returns, whole, trimmed, only⟩ := trimReturns_append (left ++ right)
  refine ⟨returns, earlier, later, by rw [← whole], around.ended, fun member => ?_, trimmed, only, around.stops,
    around.line⟩
  have inLine : '\n' ∈ left ++ right := whole ▸ List.mem_append_left returns member
  exact (List.mem_append.mp inLine).elim around.leftSingle around.rightSingle

/-- A place has an excerpt unless nothing follows the lines before it. -/
theorem Around.at?_eq {source : String} {earlier left right later : List Char} {pos : Pos}
    (around : Around earlier left right later pos) (whole : source.toList = earlier ++ (left ++ right ++ later)) :
    Excerpt.at? source pos =
      if left ++ right ++ later = [] then none else some (.ofLine pos.line pos.column (left ++ right)) := by
  rw [Excerpt.at?, around.line, whole]
  dsimp only
  rw [Text.getElem?_lines_append around.ended]
  split
  · rename_i nothing
    rw [nothing]
    rfl
  · rename_i something
    rw [Text.head?_lines_append (by simp [around.leftSingle, around.rightSingle]) around.stops something]
    rfl

/-! ## Messages -/

theorem Cause.message_ne_empty (cause : Cause) : cause.message ≠ "" := by
  unfold Cause.message
  split <;> simp only [ne_eq, String.append_eq_empty_iff, String.reduceEq, false_and, not_false_iff]

namespace Diagnostic

/-- The row that shows the line of an excerpt. -/
def lineRow (excerpt : Excerpt) : String :=
  frame (Nat.repr excerpt.line ++ " |") ++ " " ++ String.ofList excerpt.text

/-- The row below it, with carets in the columns of the marked character. -/
def markRow (excerpt : Excerpt) : String :=
  frame (blanks (Nat.repr excerpt.line).length ++ " |") ++
    alarm (blanks (1 + excerpt.columnsBefore) ++ String.ofList (List.replicate excerpt.markColumns '^'))

/-- The message stands beside the mark and nowhere else. -/
theorem exists_excerptLines_eq (name : String) (pos : Pos) (excerpt : Excerpt) :
    ∃ arrow bar, ∀ message, message ≠ "" → (Diagnostic.mk name pos message).excerptLines excerpt =
      [arrow, bar, lineRow excerpt, markRow excerpt ++ (" " ++ alarm message), bar] := by
  refine ⟨blanks (Nat.repr excerpt.line).length ++ frame "-->" ++ " " ++ name ++ ":" ++ Nat.repr excerpt.line ++ ":" ++
    Nat.repr (excerpt.mark + 1), frame (blanks (Nat.repr excerpt.line).length ++ " |"), fun message worded => ?_⟩
  rw [excerptLines]
  dsimp only
  rw [if_neg (by simpa using worded)]
  rfl

/-- What is shown before the message and after it does not depend on the message. -/
theorem exists_snippet_eq (name : String) {source : String} {pos : Pos} {excerpt : Excerpt}
    (found : Excerpt.at? source pos = some excerpt) :
    ∃ front back, ∀ message, message ≠ "" → (Diagnostic.mk name pos message).snippet source =
      front ++ lineRow excerpt ++ "\n" ++ markRow excerpt ++ " " ++ alarm message ++ back := by
  obtain ⟨arrow, bar, shown⟩ := exists_excerptLines_eq name pos excerpt
  refine ⟨title ++ "\n" ++ arrow ++ "\n" ++ bar ++ "\n", "\n" ++ bar, fun message worded => ?_⟩
  rw [snippet, found, Option.map_some, Option.getD_some, shown message worded]
  simp only [String.intercalate_cons_cons, String.intercalate_singleton, String.append_assoc]

/-- Without an excerpt the title is all that is shown. -/
theorem snippet_eq_title {source : String} {diagnostic : Diagnostic}
    (missing : Excerpt.at? source diagnostic.pos = none) : diagnostic.snippet source = title := by
  rw [snippet, missing]
  rfl

end Diagnostic

end Script

end MissionGraph
