import MissionGraph.Proofs.Script.Carrying
import MissionGraph.Proofs.Script.Scanning

/-!
# Margins do not matter

Texts that differ only in the blanks at the start of lines have the same tokens on the same lines, or the same fault
on the same line. A line can start inside a comment or after a text of any content: the line feed in front of the
blanks ends whatever stands before it.
-/

namespace MissionGraph.Script

open Number (isDigit)

/-- The line of a place. -/
def Pos.lineOnly (pos : Pos) : Pos := ⟨pos.line, 0⟩

/-- Two texts that differ only in the blanks at the start of lines. -/
inductive SameLines : List Char → List Char → Prop where
  | nil : SameLines [] []
  | cons (c : Char) {first second : List Char} (rest : SameLines first second) : SameLines (c :: first) (c :: second)
  | margin (left right : Nat) {first second : List Char} (rest : SameLines first second) :
      SameLines ('\n' :: (List.replicate left ' ' ++ first)) ('\n' :: (List.replicate right ' ' ++ second))

/-- Two cursors in such texts that are on the same line. -/
structure Cursor.Alike (first second : Cursor) : Prop where
  rest : SameLines first.rest second.rest
  line : first.pos.line = second.pos.line

theorem Pos.line_after (pos : Pos) (text : List Char) : (pos.after text).line = pos.line + text.count '\n' := by
  induction text generalizing pos with
  | nil => rfl
  | cons c rest ih =>
      rw [Pos.after_cons, ih, Pos.step]
      by_cases feed : c = '\n'
      · rw [if_pos feed, feed, List.count_cons_self]
        exact Nat.succ_add_eq_add_succ _ _
      · rw [if_neg feed, List.count_cons_of_ne feed]

namespace SameLines

variable {first second : List Char}

theorem refl (text : List Char) : SameLines text text := by
  induction text with
  | nil => exact .nil
  | cons c rest ih => exact .cons c ih

theorem append (text : List Char) (rest : SameLines first second) : SameLines (text ++ first) (text ++ second) := by
  induction text with
  | nil => exact rest
  | cons c _ ih => exact .cons c ih

/-- Behind the gap there are such texts again, as many lines further down. -/
theorem splitGap (same : SameLines first second) (inComment : Bool) :
    SameLines (splitGap inComment first).2 (splitGap inComment second).2 ∧
      (Script.splitGap inComment first).1.count '\n' = (Script.splitGap inComment second).1.count '\n' := by
  induction same generalizing inComment with
  | nil => exact ⟨.nil, rfl⟩
  | cons c rest ih =>
      rw [Script.splitGap, Script.splitGap]
      split
      · obtain ⟨later, feeds⟩ := ih ((inComment || c == '#') && c != '\n')
        exact ⟨later, by rw [List.count_cons, List.count_cons, feeds]⟩
      · exact ⟨.cons c rest, rfl⟩
  | margin left right rest ih =>
      obtain ⟨later, feeds⟩ := ih false
      rw [splitGap_feed, splitGap_feed, skipped_replicate, skipped_replicate]
      refine ⟨later, ?_⟩
      simp [feeds, List.count_replicate]

/-- A word does not reach over the end of a line. -/
theorem span (same : SameLines first second) {test : Char → Bool} (stops : test '\n' = false) :
    first.takeWhile test = second.takeWhile test ∧ SameLines (first.dropWhile test) (second.dropWhile test) := by
  induction same with
  | nil => exact ⟨rfl, .nil⟩
  | cons c rest ih =>
      rw [List.takeWhile_cons, List.takeWhile_cons, List.dropWhile_cons, List.dropWhile_cons]
      split
      · exact ⟨congrArg (c :: ·) ih.1, ih.2⟩
      · exact ⟨rfl, .cons c rest⟩
  | margin left right rest ih =>
      rw [List.takeWhile_cons, List.takeWhile_cons, List.dropWhile_cons, List.dropWhile_cons, stops]
      exact ⟨rfl, .margin left right rest⟩

end SameLines

/-- The same token with such texts behind it, or the same fault after the same characters. -/
inductive Lexeme.Alike : Lexeme → Lexeme → Prop where
  | token (kind : TokenKind) (text : List Char) {first second : List Char} (rest : SameLines first second) :
      Alike (.token kind text first) (.token kind text second)
  | fault (cause : Cause) (passed first second : List Char) :
      Alike (.fault cause passed first) (.fault cause passed second)

theorem numberLexeme_of_ne {c : Char} (notPoint : c ≠ '.') (digits rest : List Char) :
    numberLexeme digits (c :: rest) = .token .integer digits (c :: rest) := by
  rw [numberLexeme]
  · rintro ⟨⟩
    exact notPoint rfl
  · rintro d more ⟨⟩
    exact notPoint rfl

theorem SameLines.numberLexeme {first second : List Char} (same : SameLines first second) (digits : List Char) :
    (numberLexeme digits first).Alike (Script.numberLexeme digits second) := by
  cases same with
  | nil => exact .token _ _ .nil
  | margin left right rest => exact .token _ _ (.margin left right rest)
  | @cons c first second rest =>
      by_cases point : c = '.'
      · subst point
        cases rest with
        | nil => exact .fault _ _ _ _
        | margin left right rest => exact .fault _ _ _ _
        | @cons d _ _ after =>
            obtain ⟨taken, left⟩ := (SameLines.cons d after).span (by decide : isDigit '\n' = false)
            rw [Script.numberLexeme, Script.numberLexeme, taken]
            split
            · exact .token _ _ left
            · exact .fault _ _ _ _
      · rw [numberLexeme_of_ne point, numberLexeme_of_ne point]
        exact .token _ _ (.cons c rest)

theorem SameLines.lexeme {first second : List Char} (same : SameLines first second) (c : Char) :
    (lexeme c first).Alike (Script.lexeme c second) := by
  unfold Script.lexeme
  cases mark? c with
  | some kind => exact .token _ _ same
  | none =>
      dsimp only
      split
      · obtain ⟨taken, left⟩ := same.span (by decide : isDigit '\n' = false)
        rw [taken]
        exact left.numberLexeme _
      · split
        · obtain ⟨taken, left⟩ := same.span (by decide : isNamePart '\n' = false)
          rw [taken]
          exact .token _ _ left
        · exact .fault _ _ _ _

/-- The same token, end or fault on the same line, with such texts behind a token. -/
inductive Scanned.Alike : Scanned → Scanned → Prop where
  | token {first second : Token} {next other : Cursor} (same : first.mapPos Pos.lineOnly = second.mapPos Pos.lineOnly)
      (rest : next.Alike other) : Alike (.token first next) (.token second other)
  | endOfFile {first second : Pos} (same : first.lineOnly = second.lineOnly) :
      Alike (.endOfFile first) (.endOfFile second)
  | fault {first second : Fault} {next other : Cursor} (same : first.mapPos Pos.lineOnly = second.mapPos Pos.lineOnly) :
      Alike (.fault first next) (.fault second other)

theorem Pos.lineOnly_after {first second : Pos} (same : first.line = second.line) {text other : List Char}
    (feeds : text.count '\n' = other.count '\n') : (first.after text).line = (second.after other).line := by
  rw [Pos.line_after, Pos.line_after, same, feeds]

theorem Cursor.Alike.scan {first second : Cursor} (alike : first.Alike second) : first.scan.Alike second.scan := by
  obtain ⟨text, pos⟩ := first
  obtain ⟨other, place⟩ := second
  obtain ⟨left, feeds⟩ := alike.rest.splitGap false
  unfold Cursor.scan
  dsimp only at left feeds ⊢
  generalize splitGap false text = parts at left feeds ⊢
  generalize splitGap false other = others at left feeds ⊢
  obtain ⟨gap, body⟩ := parts
  obtain ⟨gap', body'⟩ := others
  have line : (pos.after gap).line = (place.after gap').line := Pos.lineOnly_after alike.line feeds
  have lineOnly : (pos.after gap).lineOnly = (place.after gap').lineOnly := congrArg (Pos.mk · 0) line
  dsimp only at left ⊢
  cases left with
  | nil => exact .endOfFile lineOnly
  | margin left right rest => exact .fault (congrArg (Fault.mk · _) lineOnly)
  | cons c rest =>
      have taken := rest.lexeme c
      dsimp only
      generalize lexeme c _ = one at taken ⊢
      generalize lexeme c _ = two at taken ⊢
      cases taken with
      | token kind text later =>
          have same : Token.mapPos Pos.lineOnly ⟨kind, String.ofList text, pos.after gap⟩ =
              Token.mapPos Pos.lineOnly ⟨kind, String.ofList text, place.after gap'⟩ :=
            congrArg (Token.mk kind _) lineOnly
          exact .token same ⟨later, Pos.lineOnly_after line rfl⟩
      | fault cause passed _ _ =>
          have stops : ((pos.after gap).after passed).lineOnly = ((place.after gap').after passed).lineOnly :=
            congrArg (Pos.mk · 0) (Pos.lineOnly_after line rfl)
          exact .fault (congrArg (Fault.mk · (cause.mapPos Pos.lineOnly)) stops)

theorem Cursor.Alike.tokenList {first second : Cursor} (alike : first.Alike second) :
    first.tokenList.tokens.map (Token.mapPos Pos.lineOnly) = second.tokenList.tokens.map (Token.mapPos Pos.lineOnly) ∧
      first.tokenList.ending.mapPos Pos.lineOnly = second.tokenList.ending.mapPos Pos.lineOnly := by
  fun_induction Cursor.tokenList first generalizing second with
  | case1 cursor token next found later =>
      rename_i ih
      have scanned := found ▸ alike.scan
      generalize foundOther : second.scan = other at scanned
      cases scanned with
      | token same rest =>
          obtain ⟨tokens, ending⟩ := ih rest
          rw [Cursor.tokenList_of_token foundOther]
          exact ⟨by rw [List.map_cons, List.map_cons, same, tokens], ending⟩
  | case2 cursor pos found =>
      have scanned := found ▸ alike.scan
      generalize foundOther : second.scan = other at scanned
      cases scanned with
      | endOfFile same =>
          rw [Cursor.tokenList_of_endOfFile foundOther]
          exact ⟨rfl, congrArg Ending.endOfFile same⟩
  | case3 cursor fault next found =>
      have scanned := found ▸ alike.scan
      generalize foundOther : second.scan = other at scanned
      cases scanned with
      | fault same =>
          rw [Cursor.tokenList_of_fault foundOther]
          exact ⟨rfl, congrArg Ending.fault same⟩

/-- Texts that differ only in margins are parsed alike. -/
theorem SameLines.parse {first second : String} (same : SameLines first.toList second.toList) :
    carry Pos.lineOnly (mapNotesBody Pos.lineOnly) (parse first) =
      carry Pos.lineOnly (mapNotesBody Pos.lineOnly) (Script.parse second) := by
  have alike : (Cursor.ofText first).Alike (Cursor.ofText second) := ⟨same, rfl⟩
  obtain ⟨tokens, ending⟩ := alike.tokenList
  unfold Script.parse TokenList.ofText
  rw [← Parser.script_mapPos, ← Parser.script_mapPos, tokens, ending]

end MissionGraph.Script
