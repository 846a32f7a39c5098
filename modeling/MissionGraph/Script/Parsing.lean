import MissionGraph.Script.Scanner

/-!
# Parsing from the front of a token list

A parser takes tokens from the front of a list, at least one of them. What it returns holds the rest
together with the fact that it is shorter, which is why repetition comes to an end.
-/

namespace MissionGraph.Script

/-- A value read from the front of a token list, and the tokens after it. -/
structure Read (tokens : List Token) (α : Type) where
  value : α
  rest : List Token
  shorter : rest.length < tokens.length

namespace Read

variable {α β : Type} {tokens : List Token}

def map (f : α → β) (read : Read tokens α) : Read tokens β :=
  ⟨f read.value, read.rest, read.shorter⟩

/-- What is read from a later part of a list is read from the list. -/
def widen {part : List Token} (fewer : part.length ≤ tokens.length) (read : Read part α) :
    Read tokens α :=
  ⟨read.value, read.rest, Nat.lt_of_lt_of_le read.shorter fewer⟩

end Read

/-- A parser knows how the token list ends, since a fault of the text counts from there on. -/
def Parser (α : Type) : Type :=
  Ending → (tokens : List Token) → Except Fault (Read tokens α)

/-- The fault when a further token was needed: the fault of the text, or the cause that the end of the
text gives. -/
def Ending.toFault (ending : Ending) (cause : Token → Cause) : Fault :=
  match ending with
  | .endOfFile pos => ⟨pos, cause (.endOfFile pos)⟩
  | .fault met => met

namespace Parser

variable {α β : Type}

/-- A token of the given class. An integer is a number too. -/
def token (kind : TokenKind) : Parser Token
  | ending, [] => .error (ending.toFault (.expected kind))
  | _, token :: rest =>
      if token.kind = kind ∨ (kind = .float ∧ token.kind = .integer) then
        .ok ⟨token, rest, Nat.lt_succ_self _⟩
      else .error ⟨token.pos, .expected kind token⟩

/-- The second parser goes on where the first one stopped. -/
def bind (first : Parser α) (second : α → Parser β) : Parser β := fun ending tokens =>
  match first ending tokens with
  | .error fault => .error fault
  | .ok read =>
      match second read.value ending read.rest with
      | .error fault => .error fault
      | .ok later => .ok (later.widen (Nat.le_of_lt read.shorter))

/-- The value passes a further test, which may refuse it. -/
def check (parser : Parser α) (test : α → Except Fault β) : Parser β := fun ending tokens =>
  match parser ending tokens with
  | .error fault => .error fault
  | .ok read =>
      match test read.value with
      | .error fault => .error fault
      | .ok value => .ok (read.map fun _ => value)

def map (f : α → β) (parser : Parser α) : Parser β := fun ending tokens =>
  (parser ending tokens).map (Read.map f)

/-- Looks at the first token: if something is made of it, it is passed over and the parser chosen by
it goes on; otherwise the other parser starts at it. -/
def byFirst (choose : Token → Option β) (chosen : β → Parser α) (other : Parser α) : Parser α
  | ending, [] => other ending []
  | ending, first :: rest =>
      match choose first with
      | some choice => (chosen choice ending rest).map (Read.widen (Nat.le_succ _))
      | none => other ending (first :: rest)

/-- After the first value, if a token of the given class follows, that token and a second value. -/
def andMaybe (first : Parser α) (kind : TokenKind) (second : Parser β) : Parser (α × Option β) :=
  fun ending tokens =>
    match first ending tokens with
    | .error fault => .error fault
    | .ok ⟨value, [], shorter⟩ => .ok ⟨(value, none), [], shorter⟩
    | .ok ⟨value, next :: rest, shorter⟩ =>
        if next.kind = kind then
          match second ending rest with
          | .error fault => .error fault
          | .ok later =>
              .ok ((later.map fun other => (value, some other)).widen
                (Nat.le_trans (Nat.le_succ _) (Nat.le_of_lt shorter)))
        else .ok ⟨(value, none), next :: rest, shorter⟩

/-- One value or several with a token of the given class between them. -/
def separated (kind : TokenKind) (item : Parser α) : Parser (List α) := fun ending tokens =>
  match item ending tokens with
  | .error fault => .error fault
  | .ok ⟨value, [], shorter⟩ => .ok ⟨[value], [], shorter⟩
  | .ok ⟨value, next :: rest, shorter⟩ =>
      if next.kind = kind then
        match separated kind item ending rest with
        | .error fault => .error fault
        | .ok later =>
            .ok ((later.map (value :: ·)).widen
              (Nat.le_trans (Nat.le_succ _) (Nat.le_of_lt shorter)))
      else .ok ⟨[value], next :: rest, shorter⟩
termination_by _ tokens => tokens.length
decreasing_by exact Nat.lt_trans (Nat.lt_succ_self _) shorter

/-- One value or several, up to a token of the given class, which is left in place. -/
def upTo (kind : TokenKind) (item : Parser α) : Parser (List α) := fun ending tokens =>
  match item ending tokens with
  | .error fault => .error fault
  | .ok ⟨value, rest, shorter⟩ =>
      if (rest.head?.map Token.kind) = some kind then .ok ⟨[value], rest, shorter⟩
      else
        match upTo kind item ending rest with
        | .error fault => .error fault
        | .ok later => .ok ((later.map (value :: ·)).widen (Nat.le_of_lt shorter))
termination_by _ tokens => tokens.length
decreasing_by exact shorter

end Parser

end MissionGraph.Script
