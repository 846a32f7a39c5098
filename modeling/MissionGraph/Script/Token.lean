/-!
# Tokens

The words, numbers and marks of a script, each with the place where it starts.
-/

namespace MissionGraph.Script

/-- A place in a text. Lines and columns are counted from 1, columns in characters. -/
structure Pos where
  line : Nat
  column : Nat
deriving DecidableEq

namespace Pos

/-- The first place of a text. -/
def start : Pos := ⟨1, 1⟩

/-- The place after a character. -/
def step (pos : Pos) (c : Char) : Pos :=
  if c = '\n' then ⟨pos.line + 1, 1⟩ else ⟨pos.line, pos.column + 1⟩

/-- The place after a text. -/
def after (pos : Pos) (text : List Char) : Pos :=
  text.foldl step pos

@[simp] theorem after_nil (pos : Pos) : pos.after [] = pos := rfl

@[simp] theorem after_cons (pos : Pos) (c : Char) (text : List Char) :
    pos.after (c :: text) = (pos.step c).after text := rfl

@[simp] theorem after_append (pos : Pos) (first second : List Char) :
    pos.after (first ++ second) = (pos.after first).after second := by
  simp [after]

end Pos

/-- The classes of tokens. -/
inductive TokenKind where
  | identifier
  | integer
  | float
  | comma
  | leftParen
  | rightParen
  | semicolon
  | endOfFile
deriving DecidableEq

namespace TokenKind

/-- What messages call a token of this class. -/
def description : TokenKind → String
  | .identifier => "identifier"
  | .integer => "integer"
  | .float => "number"
  | .comma => "','"
  | .leftParen => "'('"
  | .rightParen => "')'"
  | .semicolon => "';'"
  | .endOfFile => "end of file"

end TokenKind

structure Token where
  kind : TokenKind
  text : String
  pos : Pos
deriving DecidableEq

namespace Token

/-- The token that stands for the end of a text. -/
def endOfFile (pos : Pos) : Token := ⟨.endOfFile, "", pos⟩

/-- What messages call this very token. -/
def description (token : Token) : String :=
  if token.kind = .endOfFile then "end of file" else "'" ++ token.text ++ "'"

/-- The token is the given word. -/
def isWord (token : Token) (word : String) : Bool :=
  token.kind == .identifier && token.text == word

end Token

end MissionGraph.Script
