import MissionGraph.Number.Integer
import MissionGraph.Script.Fault
import MissionGraph.Text.Blank

/-!
# From text to tokens

A token is preceded by a gap of blanks and comments. The scanner splits the gap off, takes the longest
token at the front of the rest, and counts places over all characters that it passes. A text that no
token starts stops it.
-/

namespace MissionGraph.Script

open Number (isDigit)

/-- Names start with a letter or an underscore. -/
def isNameStart (c : Char) : Bool :=
  c.isAlpha || c == '_'

/-- Names go on with letters, digits and underscores. -/
def isNamePart (c : Char) : Bool :=
  c.isAlphanum || c == '_'

/-- The gap in front of the next token, and the text after it. A comment runs from a `#` up to the
line feed; the flag says that the text starts inside a comment. -/
def splitGap : Bool → List Char → List Char × List Char
  | _, [] => ([], [])
  | inComment, c :: rest =>
      if inComment || c == '#' || Text.isBlank c then
        let (gap, tail) := splitGap ((inComment || c == '#') && c != '\n') rest
        (c :: gap, tail)
      else ([], c :: rest)

/-- The class of a mark that is a token of its own. -/
def mark? (c : Char) : Option TokenKind :=
  if c = ',' then some .comma
  else if c = '(' then some .leftParen
  else if c = ')' then some .rightParen
  else if c = ';' then some .semicolon
  else none

/-- The front of a text: a token and the text after it, or the cause why there is none, the
characters passed before that was clear, and the text after those. -/
inductive Lexeme where
  | token (kind : TokenKind) (text rest : List Char)
  | fault (cause : Cause) (passed rest : List Char)

/-- A number, given its leading digits and the text after them. -/
def numberLexeme (digits rest : List Char) : Lexeme :=
  match rest with
  | '.' :: [] => .fault .numberCutShort (digits ++ ['.']) []
  | '.' :: d :: more =>
      if isDigit d then
        .token .float (digits ++ '.' :: (d :: more).takeWhile isDigit) ((d :: more).dropWhile isDigit)
      else .fault (.digitExpected d) (digits ++ ['.']) (d :: more)
  | _ => .token .integer digits rest

/-- The longest token at the front of a text that has no gap there. -/
def lexeme (c : Char) (rest : List Char) : Lexeme :=
  match mark? c with
  | some kind => .token kind [c] rest
  | none =>
      if isDigit c then numberLexeme (c :: rest.takeWhile isDigit) (rest.dropWhile isDigit)
      else if isNameStart c then
        .token .identifier (c :: rest.takeWhile isNamePart) (rest.dropWhile isNamePart)
      else .fault (.unexpectedCharacter c) [] (c :: rest)

/-- The text still to be scanned and its place. -/
structure Cursor where
  rest : List Char
  pos : Pos

namespace Cursor

/-- The cursor at the start of a text. -/
def ofText (text : String) : Cursor := ⟨text.toList, .start⟩

end Cursor

/-- What the scanner meets next, and from where it goes on. -/
inductive Scanned where
  | token (token : Token) (next : Cursor)
  | endOfFile (pos : Pos)
  | fault (fault : Fault) (next : Cursor)

/-- The next token after the gap at the cursor. -/
def Cursor.scan (cursor : Cursor) : Scanned :=
  let (gap, body) := splitGap false cursor.rest
  let pos := cursor.pos.after gap
  match body with
  | [] => .endOfFile pos
  | c :: tail =>
      match lexeme c tail with
      | .token kind text rest => .token ⟨kind, String.ofList text, pos⟩ ⟨rest, pos.after text⟩
      | .fault cause passed rest => .fault ⟨pos.after passed, cause⟩ ⟨rest, pos.after passed⟩

/-- Nothing is lost when the gap is split off. -/
theorem splitGap_append (inComment : Bool) (text : List Char) :
    (splitGap inComment text).1 ++ (splitGap inComment text).2 = text := by
  induction text generalizing inComment with
  | nil => rfl
  | cons c rest ih =>
      unfold splitGap
      split
      · exact congrArg (c :: ·) (ih _)
      · rfl

/-- A token of a number is the digits with what follows them. -/
theorem numberLexeme_token {digits rest : List Char} {kind : TokenKind} {text tail : List Char}
    (found : numberLexeme digits rest = .token kind text tail) : text ++ tail = digits ++ rest := by
  unfold numberLexeme at found
  split at found
  · cases found
  · split at found
    · cases found
      simp [List.takeWhile_append_dropWhile]
    · cases found
  · cases found
    rfl

/-- A token is a front of the text that it was taken from. -/
theorem lexeme_token {c : Char} {rest : List Char} {kind : TokenKind} {text tail : List Char}
    (found : lexeme c rest = .token kind text tail) : text ++ tail = c :: rest := by
  unfold lexeme at found
  split at found
  · cases found
    rfl
  · split at found
    · have joined := numberLexeme_token found
      simpa [List.takeWhile_append_dropWhile] using joined
    · split at found
      · cases found
        simp [List.takeWhile_append_dropWhile]
      · cases found

/-- A number keeps its leading digits in front. -/
theorem numberLexeme_text_ne_nil {digits rest : List Char} {kind : TokenKind} {text tail : List Char}
    (some_digit : digits ≠ []) (found : numberLexeme digits rest = .token kind text tail) :
    text ≠ [] := by
  unfold numberLexeme at found
  split at found
  · cases found
  · split at found
    · cases found
      simp
    · cases found
  · cases found
    exact some_digit

/-- No token is empty. -/
theorem lexeme_text_ne_nil {c : Char} {rest : List Char} {kind : TokenKind} {text tail : List Char}
    (found : lexeme c rest = .token kind text tail) : text ≠ [] := by
  unfold lexeme at found
  split at found
  · cases found
    simp
  · split at found
    · exact numberLexeme_text_ne_nil (by simp) found
    · split at found
      · cases found
        simp
      · cases found

/-- Scanning a token uses up characters. -/
theorem Cursor.scan_token_shorter {cursor next : Cursor} {token : Token}
    (found : cursor.scan = .token token next) : next.rest.length < cursor.rest.length := by
  have whole := splitGap_append false cursor.rest
  unfold Cursor.scan at found
  revert found whole
  generalize splitGap false cursor.rest = parts
  obtain ⟨gap, body⟩ := parts
  intro found whole
  cases body with
  | nil => cases found
  | cons c tail =>
      simp only at found
      split at found
      · rename_i kind text rest taken
        cases found
        have joined := congrArg List.length (lexeme_token taken)
        have positive := List.length_pos_iff.mpr (lexeme_text_ne_nil taken)
        have total := congrArg List.length whole
        simp only [List.length_append, List.length_cons] at joined total
        show rest.length < cursor.rest.length
        omega
      · cases found

/-- How a list of tokens ends: with the text, or at a fault. -/
inductive Ending where
  | endOfFile (pos : Pos)
  | fault (fault : Fault)
deriving DecidableEq

/-- The tokens of a text up to its end or its first fault. -/
structure TokenList where
  tokens : List Token
  ending : Ending
deriving DecidableEq

/-- All tokens from the cursor on. -/
def Cursor.tokenList (cursor : Cursor) : TokenList :=
  match _found : cursor.scan with
  | .token token next =>
      let later := next.tokenList
      ⟨token :: later.tokens, later.ending⟩
  | .endOfFile pos => ⟨[], .endOfFile pos⟩
  | .fault fault _ => ⟨[], .fault fault⟩
termination_by cursor.rest.length
decreasing_by exact Cursor.scan_token_shorter _found

/-- The tokens of a script. -/
def TokenList.ofText (text : String) : TokenList :=
  (Cursor.ofText text).tokenList

end MissionGraph.Script
