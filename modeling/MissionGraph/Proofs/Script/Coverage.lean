import Mathlib.Data.List.Induction
import MissionGraph.Graph.Search
import MissionGraph.Proofs.Script.Scanning
import MissionGraph.Script.Reader

/-!
# Tokens cover the text

The tokens of a text stand in it one after the other, with nothing but blanks and comments between them. Each
of them has the place where it stands, is of the class that its text belongs to, and is as long as possible.
The reader passes over exactly these tokens before it comes to the end of the text or to a fault.
-/

namespace MissionGraph.Script

open Number (Digits isDigit)

/-! ## What stands in a text -/

/-- A gap in front of a text: blanks, and comments that run up to a line feed or to the end. -/
inductive Gap : List Char → List Char → Prop where
  | nil (after : List Char) : Gap [] after
  | blank {c : Char} {gap after : List Char} (isBlank : Text.isBlank c = true) (later : Gap gap after) :
      Gap (c :: gap) after
  | comment {line gap after : List Char} (oneLine : '\n' ∉ line) (stops : ∀ c ∈ (gap ++ after).head?, c = '\n')
      (later : Gap gap after) : Gap ('#' :: line ++ gap) after

/-- The letters A to Z and a to z. -/
def IsLetter (c : Char) : Prop :=
  ('A' ≤ c ∧ c ≤ 'Z') ∨ ('a' ≤ c ∧ c ≤ 'z')

/-- The texts of the classes of tokens. -/
inductive Lexical : TokenKind → List Char → Prop where
  | identifier {c : Char} {rest : List Char} (first : IsLetter c ∨ c = '_')
      (later : ∀ d ∈ rest, IsLetter d ∨ ('0' ≤ d ∧ d ≤ '9') ∨ d = '_') : Lexical .identifier (c :: rest)
  | integer {digits : List Char} (whole : Digits digits) : Lexical .integer digits
  | float {whole fraction : List Char} (front : Digits whole) (back : Digits fraction) :
      Lexical .float (whole ++ '.' :: fraction)
  | comma : Lexical .comma [',']
  | leftParen : Lexical .leftParen ['(']
  | rightParen : Lexical .rightParen [')']
  | semicolon : Lexical .semicolon [';']

/-- The place right after a text: one line for each line feed, one column for each character since then. -/
structure IsPlaceAfter (before : List Char) (pos : Pos) : Prop where
  line : pos.line = before.count '\n' + 1
  column : pos.column = (before.reverse.takeWhile (· != '\n')).length + 1

/-- The text of a token, taken from the front of a text: it belongs to the class of the token and to no other,
and no longer front of the text belongs to any class. -/
structure Taken (kind : TokenKind) (text rest : List Char) : Prop where
  kind : ∀ other, Lexical other text ↔ other = kind
  longest : ∀ other more later, rest = more ++ later → more ≠ [] → ¬ Lexical other (text ++ more)

/-- Tokens stand in a text in their order, with gaps in front of them. What stands before the text comes first,
what the tokens leave of it last. -/
inductive Covers : List Char → List Char → List Token → List Char → Prop where
  | nil (before text : List Char) : Covers before text [] text
  | cons {before gap tail rest : List Char} {token : Token} {tokens : List Token}
      (isGap : Gap gap (token.text.toList ++ tail)) (place : IsPlaceAfter (before ++ gap) token.pos)
      (taken : Taken token.kind token.text.toList tail)
      (later : Covers (before ++ gap ++ token.text.toList) tail tokens rest) :
      Covers before (gap ++ token.text.toList ++ tail) (token :: tokens) rest

/-- Looking at the current token and passing over it, again and again, gives these tokens. -/
inductive Reader.Passes : Reader → List Token → Reader → Prop where
  | nil (reader : Reader) : Passes reader [] reader
  | cons {reader looked next last : Reader} {token : Token} {tokens : List Token}
      (current : reader.current = (.ok token, looked)) (passed : looked.advance = (.ok (), next))
      (later : Passes next tokens last) : Passes reader (token :: tokens) last

/-! ## Places -/

theorem isPlaceAfter_after (before : List Char) : IsPlaceAfter before (Pos.start.after before) := by
  induction before using List.reverseRecOn with
  | nil => exact ⟨rfl, rfl⟩
  | append_singleton before c ih =>
      rw [Pos.after_append, Pos.after_cons, Pos.after_nil, Pos.step]
      split
      · rename_i isFeed
        subst isFeed
        exact ⟨by simp [ih.line], by simp⟩
      · rename_i other
        exact ⟨by simp [ih.line, other], by simp [ih.column, other]⟩

/-! ## Gaps -/

/-- What is split off is a gap; inside a comment it is the rest of the comment and a gap. -/
theorem gap_splitGap (text : List Char) :
    Gap (splitGap false text).1 (splitGap false text).2 ∧
      ∃ line gap, (splitGap true text).1 = line ++ gap ∧ '\n' ∉ line ∧
        (∀ c ∈ (gap ++ (splitGap true text).2).head?, c = '\n') ∧ Gap gap (splitGap true text).2 := by
  induction text with
  | nil => exact ⟨.nil _, [], [], rfl, List.not_mem_nil, by simp [splitGap], .nil _⟩
  | cons c rest ih =>
      obtain ⟨outside, line, gap, isSplit, oneLine, stops, inside⟩ := ih
      constructor
      · by_cases starts : c = '#'
        · rw [starts, splitGap_hash, isSplit]
          exact .comment oneLine stops inside
        · cases isBlank : Text.isBlank c with
          | true =>
              rw [splitGap_blank isBlank starts]
              exact .blank isBlank outside
          | false =>
              rw [splitGap_visible isBlank starts]
              exact .nil _
      · by_cases isFeed : c = '\n'
        · rw [isFeed, splitGap_feed]
          exact ⟨[], _, rfl, List.not_mem_nil, by simp, .blank (by decide) outside⟩
        · rw [splitGap_comment isFeed, isSplit]
          exact ⟨c :: line, gap, rfl, by simp [oneLine, Ne.symm isFeed], stops, inside⟩

/-! ## Classes of tokens -/

theorem isNameStart_iff_isLetter (c : Char) : isNameStart c = true ↔ IsLetter c ∨ c = '_' := by
  have underscore : c = '_' ↔ c.toNat = 95 := by
    rw [← Char.toNat_inj]
    rfl
  rw [isNameStart_iff, IsLetter, underscore]
  simp only [Char.le_def, UInt32.le_iff_toNat_le, Char.toNat_val]
  exact ⟨by rintro (upper | underscore | lower) <;> simp_all, by rintro ((upper | lower) | underscore) <;> simp_all⟩

theorem isNamePart_iff_isLetter (c : Char) : isNamePart c = true ↔ IsLetter c ∨ ('0' ≤ c ∧ c ≤ '9') ∨ c = '_' := by
  have digit : isDigit c = true ↔ '0' ≤ c ∧ c ≤ '9' := by
    rw [isDigit, Bool.and_eq_true, decide_eq_true_eq, decide_eq_true_eq]
  rw [isNamePart_eq, Bool.or_eq_true, isNameStart_iff_isLetter, digit]
  tauto

/-- The first character of a token tells whether it is a name, a number or a mark. -/
theorem Lexical.first {kind : TokenKind} {c : Char} {rest : List Char} (lexical : Lexical kind (c :: rest)) :
    (isNameStart c = true ∧ kind = .identifier ∧ ∀ d ∈ rest, isNamePart d = true) ∨
      (isDigit c = true ∧ (kind = .integer ∧ Digits (c :: rest) ∨
        kind = .float ∧ ∃ whole fraction, c :: rest = whole ++ '.' :: fraction ∧ Digits whole ∧ Digits fraction)) ∨
      (mark? c = some kind ∧ rest = []) := by
  generalize isText : c :: rest = text at lexical
  cases lexical with
  | identifier start later =>
      cases isText
      exact .inl ⟨(isNameStart_iff_isLetter c).mpr start, rfl,
        fun d member => (isNamePart_iff_isLetter d).mpr (later d member)⟩
  | integer whole =>
      subst isText
      exact .inr (.inl ⟨whole.2 c List.mem_cons_self, .inl ⟨rfl, whole⟩⟩)
  | @float whole fraction front back =>
      have digit : isDigit c = true := by
        cases whole with
        | nil => exact absurd rfl front.1
        | cons d more =>
            cases isText
            exact front.2 c List.mem_cons_self
      exact .inr (.inl ⟨digit, .inr ⟨rfl, whole, fraction, rfl, front, back⟩⟩)
  | comma | leftParen | rightParen | semicolon =>
      cases isText
      exact .inr (.inr ⟨rfl, rfl⟩)

/-- A text that starts like a name is a name or nothing. -/
theorem lexical_name_iff {c : Char} {rest : List Char} {kind : TokenKind} (start : isNameStart c = true) :
    Lexical kind (c :: rest) ↔ kind = .identifier ∧ ∀ d ∈ rest, isNamePart d = true := by
  constructor
  · intro lexical
    rcases lexical.first with ⟨_, isName⟩ | ⟨digit, _⟩ | ⟨isMark, _⟩
    · exact isName
    · rw [isDigit_eq_false start] at digit
      cases digit
    · rw [mark?_eq_none (isNamePart_of_isNameStart start)] at isMark
      cases isMark
  · rintro ⟨rfl, parts⟩
    exact .identifier ((isNameStart_iff_isLetter c).mp start)
      fun d member => (isNamePart_iff_isLetter d).mp (parts d member)

theorem lexical_mark_iff {c : Char} {rest : List Char} {kind mark : TokenKind} (isMark : mark? c = some mark) :
    Lexical kind (c :: rest) ↔ kind = mark ∧ rest = [] := by
  have notPart : isNamePart c ≠ true := by
    intro part
    rw [mark?_eq_none part] at isMark
    cases isMark
  constructor
  · intro lexical
    rcases lexical.first with ⟨start, _⟩ | ⟨digit, _⟩ | ⟨same, isNil⟩
    · exact absurd (isNamePart_of_isNameStart start) notPart
    · exact absurd (isNamePart_of_isDigit digit) notPart
    · rw [isMark] at same
      exact ⟨(Option.some.inj same).symm, isNil⟩
  · rintro ⟨rfl, rfl⟩
    unfold mark? at isMark
    split at isMark
    · subst c
      cases isMark
      exact .comma
    · split at isMark
      · subst c
        cases isMark
        exact .leftParen
      · split at isMark
        · subst c
          cases isMark
          exact .rightParen
        · split at isMark
          · subst c
            cases isMark
            exact .semicolon
          · cases isMark

theorem isDigit_head_point (fraction : List Char) : ∀ c ∈ ('.' :: fraction).head?, isDigit c = false := by
  rintro c ⟨⟩
  decide

/-- A text that starts with digits is a number or nothing. -/
theorem lexical_number_iff {digits rest : List Char} {kind : TokenKind} (whole : Digits digits)
    (stops : ∀ c ∈ rest.head?, isDigit c = false) :
    Lexical kind (digits ++ rest) ↔
      (kind = .integer ∧ rest = []) ∨ (kind = .float ∧ ∃ fraction, rest = '.' :: fraction ∧ Digits fraction) := by
  constructor
  · intro lexical
    obtain ⟨c, more, rfl⟩ := List.exists_cons_of_ne_nil whole.1
    have digit := whole.2 c List.mem_cons_self
    have isPart := isNamePart_of_isDigit digit
    rcases lexical.first with ⟨start, _⟩ | ⟨_, isNumber⟩ | ⟨isMark, _⟩
    · rw [isDigit_eq_false start] at digit
      cases digit
    · rcases isNumber with ⟨rfl, all⟩ | ⟨rfl, front, fraction, same, isFront, isFraction⟩
      · refine .inl ⟨rfl, ?_⟩
        cases rest with
        | nil => rfl
        | cons d others =>
            have other := stops d rfl
            rw [all.2 d (by simp)] at other
            cases other
      · -- both texts have the same digits up to the point
        have left : (c :: more ++ rest).dropWhile isDigit = (front ++ '.' :: fraction).dropWhile isDigit :=
          congrArg _ same
        rw [(takeWhile_run whole.2 stops).2, (takeWhile_run isFront.2 (isDigit_head_point fraction)).2] at left
        exact .inr ⟨rfl, fraction, left, isFraction⟩
    · rw [mark?_eq_none isPart] at isMark
      cases isMark
  · rintro (⟨rfl, rfl⟩ | ⟨rfl, fraction, rfl, isFraction⟩)
    · rw [List.append_nil]
      exact .integer whole
    · exact .float whole isFraction

/-! ## The token at the front of a text -/

/-- What is left after a run of characters does not start with a further one. -/
theorem head_of_dropWhile {p : Char → Bool} {text more later : List Char} (left : text.dropWhile p = more ++ later)
    (nonempty : more ≠ []) : ∃ c others, more = c :: others ∧ p c = false := by
  obtain ⟨c, others, rfl⟩ := List.exists_cons_of_ne_nil nonempty
  exact ⟨c, others, rfl, Search.not_of_dropWhile_eq_cons left⟩

theorem taken_mark {c : Char} {mark : TokenKind} (isMark : mark? c = some mark) (rest : List Char) :
    Taken mark [c] rest where
  kind := by simp [lexical_mark_iff isMark]
  longest := by
    intro other more later _ nonempty lexical
    exact nonempty ((lexical_mark_iff isMark).mp lexical).2

theorem taken_name {c : Char} (start : isNameStart c = true) (tail : List Char) :
    Taken .identifier (c :: tail.takeWhile isNamePart) (tail.dropWhile isNamePart) where
  kind := by
    intro other
    rw [lexical_name_iff start]
    exact and_iff_left (List.all_eq_true.mp List.all_takeWhile)
  longest := by
    intro other more later left nonempty lexical
    obtain ⟨d, others, rfl, stops⟩ := head_of_dropWhile left nonempty
    have part := ((lexical_name_iff start).mp lexical).2 d (by simp)
    rw [stops] at part
    cases part

theorem taken_number {digits tail : List Char} {kind : TokenKind} {text rest : List Char} (whole : Digits digits)
    (stops : ∀ c ∈ tail.head?, isDigit c = false) (found : numberLexeme digits tail = .token kind text rest) :
    Taken kind text rest := by
  unfold numberLexeme at found
  split at found
  · cases found
  · rename_i d more
    split at found
    · rename_i digit
      cases found
      have isFraction : Digits ((d :: more).takeWhile isDigit) :=
        ⟨by simp [digit], List.all_eq_true.mp List.all_takeWhile⟩
      refine ⟨fun other => ?_, fun other later tail left nonempty lexical => ?_⟩
      · rw [lexical_number_iff whole (isDigit_head_point _)]
        simp [isFraction]
      · obtain ⟨e, others, rfl, notDigit⟩ := head_of_dropWhile left nonempty
        rw [List.append_assoc, List.cons_append, lexical_number_iff whole (isDigit_head_point _)] at lexical
        rcases lexical with ⟨_, isNil⟩ | ⟨_, fraction, same, digits⟩
        · cases isNil
        · cases same
          have digit := digits.2 e (by simp)
          rw [notDigit] at digit
          cases digit
    · cases found
  · rename_i notEnd notPoint
    cases found
    refine ⟨fun other => ?_, fun other more later left nonempty lexical => ?_⟩
    · have lone : Lexical other (digits ++ []) ↔ _ := lexical_number_iff whole (by rintro c ⟨⟩)
      rw [List.append_nil] at lone
      rw [lone]
      simp
    · obtain ⟨e, others, rfl⟩ := List.exists_cons_of_ne_nil nonempty
      rw [lexical_number_iff whole (by rintro c ⟨⟩; exact stops e (by rw [left]; rfl))] at lexical
      rcases lexical with ⟨_, isNil⟩ | ⟨_, fraction, same, digits⟩
      · cases isNil
      · cases same
        obtain ⟨d, more, rfl⟩ := List.exists_cons_of_ne_nil digits.1
        exact notPoint d (more ++ later) left

theorem taken_lexeme {c : Char} {tail text rest : List Char} {kind : TokenKind}
    (found : lexeme c tail = .token kind text rest) : Taken kind text rest := by
  unfold lexeme at found
  split at found
  · rename_i isMark
    cases found
    exact taken_mark isMark _
  · split at found
    · rename_i digit
      refine taken_number ⟨List.cons_ne_nil _ _, ?_⟩ ?_ found
      · exact List.forall_mem_cons.mpr ⟨digit, List.all_eq_true.mp List.all_takeWhile⟩
      · intro d first
        obtain ⟨others, left⟩ := List.head?_eq_some_iff.mp first
        exact Search.not_of_dropWhile_eq_cons left
    · split at found
      · rename_i start
        cases found
        exact taken_name start tail
      · cases found

/-! ## All tokens of a text -/

/-- What the scanner makes of a text when it finds a token in it. -/
theorem Cursor.scan_token {cursor next : Cursor} {token : Token} (found : cursor.scan = .token token next) :
    ∃ gap, cursor.rest = gap ++ token.text.toList ++ next.rest ∧ Gap gap (token.text.toList ++ next.rest) ∧
      token.pos = cursor.pos.after gap ∧ next.pos = token.pos.after token.text.toList ∧
      Taken token.kind token.text.toList next.rest := by
  have whole := splitGap_append false cursor.rest
  have isGap := (gap_splitGap cursor.rest).1
  unfold Cursor.scan at found
  revert found whole isGap
  generalize splitGap false cursor.rest = parts
  obtain ⟨gap, body⟩ := parts
  intro found whole isGap
  cases body with
  | nil => cases found
  | cons c tail =>
      simp only at found
      split at found
      · rename_i kind text rest taken
        cases found
        have joined := lexeme_token taken
        rw [String.toList_ofList]
        refine ⟨gap, ?_, joined ▸ isGap, rfl, rfl, taken_lexeme taken⟩
        rw [List.append_assoc, joined]
        exact whole.symm
      · cases found

theorem Cursor.scan_endOfFile {cursor : Cursor} {pos : Pos} (found : cursor.scan = .endOfFile pos) :
    Gap cursor.rest [] ∧ pos = cursor.pos.after cursor.rest := by
  have whole := splitGap_append false cursor.rest
  have isGap := (gap_splitGap cursor.rest).1
  unfold Cursor.scan at found
  revert found whole isGap
  generalize splitGap false cursor.rest = parts
  obtain ⟨gap, body⟩ := parts
  intro found whole isGap
  cases body with
  | nil =>
      cases found
      rw [List.append_nil] at whole
      exact ⟨whole ▸ isGap, by rw [← whole]⟩
  | cons c tail =>
      simp only at found
      split at found <;> cases found

/-- No token that is taken from a text stands for its end. -/
theorem Taken.kind_ne {kind : TokenKind} {text rest : List Char} (taken : Taken kind text rest) :
    kind ≠ .endOfFile := by
  rintro rfl
  have lexical := (taken.kind .endOfFile).mpr rfl
  cases lexical

/-- Looking at a scanned token and passing over it leads to where the scanner goes on. -/
theorem Reader.Passes.scanned {cursor next : Cursor} {token : Token} {tokens : List Token} {last : Reader}
    (found : cursor.scan = .token token next) (later : Reader.Passes ⟨next, none⟩ tokens last) :
    Reader.Passes ⟨cursor, none⟩ (token :: tokens) last := by
  obtain ⟨_, _, _, _, _, taken⟩ := Cursor.scan_token found
  have current : (Reader.mk cursor none).current = (.ok token, ⟨next, some token⟩) := by
    rw [Reader.current]
    simp only [found]
  have passed : (Reader.mk next (some token)).advance = (.ok (), ⟨next, none⟩) := by
    simp only [Reader.advance, Reader.current, if_neg taken.kind_ne]
  exact .cons current passed later

/-- From a cursor on, the reader passes over the tokens that stand in the rest of the text, up to its end or up to
a fault. -/
theorem covers_tokenList (cursor : Cursor) (before : List Char) (place : cursor.pos = Pos.start.after before) :
    ∃ reader rest, Reader.Passes ⟨cursor, none⟩ cursor.tokenList.tokens reader ∧
      Covers before cursor.rest cursor.tokenList.tokens rest ∧
      ((∃ pos, cursor.tokenList.ending = .endOfFile pos ∧ reader.current.1 = .ok (.endOfFile pos) ∧ Gap rest [] ∧
          IsPlaceAfter (before ++ cursor.rest) pos) ∨
        ∃ fault, cursor.tokenList.ending = .fault fault ∧ reader.current.1 = .error fault) := by
  fun_induction Cursor.tokenList cursor generalizing before with
  | case1 cursor token next found later ih =>
      obtain ⟨gap, whole, isGap, isPlace, nextPlace, taken⟩ := Cursor.scan_token found
      have after : next.pos = Pos.start.after (before ++ gap ++ token.text.toList) := by
        rw [nextPlace, isPlace, place, Pos.after_append, Pos.after_append]
      obtain ⟨reader, rest, passes, covers, ends⟩ := ih _ after
      refine ⟨reader, rest, passes.scanned found, ?_, ?_⟩
      · rw [whole]
        refine .cons isGap ?_ taken covers
        rw [isPlace, place, ← Pos.after_append]
        exact isPlaceAfter_after _
      · rw [whole]
        simpa only [List.append_assoc] using ends
  | case2 cursor pos found =>
      obtain ⟨isGap, isPlace⟩ := Cursor.scan_endOfFile found
      refine ⟨⟨cursor, none⟩, cursor.rest, .nil _, .nil _ _, .inl ⟨pos, rfl, ?_, isGap, ?_⟩⟩
      · rw [Reader.current]
        simp only [found]
      · rw [isPlace, place, ← Pos.after_append]
        exact isPlaceAfter_after _
  | case3 cursor fault next found =>
      refine ⟨⟨cursor, none⟩, cursor.rest, .nil _, .nil _ _, .inr ⟨fault, rfl, ?_⟩⟩
      rw [Reader.current]
      simp only [found]

/-- The reader passes over the tokens of a text, and these stand in the text in their order, with gaps in front of
them, at their places, of the class that their text belongs to and as long as possible. Then the reader comes to
the end of the text, where nothing but a gap is left, or to a fault. -/
theorem covers_tokens (text : String) :
    ∃ reader rest, (Reader.ofText text).Passes (TokenList.ofText text).tokens reader ∧
      Covers [] text.toList (TokenList.ofText text).tokens rest ∧
      ((∃ pos, (TokenList.ofText text).ending = .endOfFile pos ∧ reader.current.1 = .ok (.endOfFile pos) ∧
          Gap rest [] ∧ IsPlaceAfter text.toList pos) ∨
        ∃ fault, (TokenList.ofText text).ending = .fault fault ∧ reader.current.1 = .error fault) :=
  covers_tokenList (.ofText text) [] rfl

end MissionGraph.Script
