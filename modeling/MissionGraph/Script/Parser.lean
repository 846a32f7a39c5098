import MissionGraph.Script.Parsing
import MissionGraph.Script.Statement

/-!
# From tokens to statements

The grammar of scripts, read from left to right. Keywords are recognised in their exact spelling; the
words inside field values in any letter case.
-/

namespace MissionGraph.Script

open Mission (Comm Field Message Objective Offer OfferItem OfferMode Party Plurality Difficulty)
open Number (Single)

namespace Parser

/-! ## Words and numbers -/

/-- A name. -/
def identifier : Parser String :=
  (token .identifier).map Token.text

/-- An integer of 32 bits. -/
def integer : Parser Int32 :=
  (token .integer).check fun token =>
    match Number.readInt32? token.text.toList with
    | some value => .ok value
    | none => .error ⟨token.pos, .integerOutOfRange⟩

/-- A number with or without a fraction. -/
def number : Parser Single :=
  (token .float).check fun token =>
    match Single.read? token.text.toList with
    | some value => .ok value
    | none => .error ⟨token.pos, .invalidNumber token.text⟩

/-- One of the words for a place of a field value. -/
def word {α : Type} (slot : Slot) (ofWord? : String → Option α) : Parser α :=
  (token .identifier).check fun token =>
    match ofWord? token.text with
    | some value => .ok value
    | none => .error ⟨token.pos, .expectedWord slot⟩

/-- The value of a parser after a mark. -/
def afterMark {α : Type} (kind : TokenKind) (parser : Parser α) : Parser α :=
  (token kind).bind fun _ => parser

/-- The value of a parser before a mark. -/
def beforeMark {α : Type} (kind : TokenKind) (parser : Parser α) : Parser α :=
  parser.bind fun value => (token kind).map fun _ => value

/-- Names with commas between them. -/
def names : Parser (List String) :=
  separated .comma identifier

/-! ## Field values -/

def comm : Parser Comm :=
  identifier.bind fun event =>
  (afterMark .comma (word .commTarget Party.ofWord?)).bind fun hearer =>
  (afterMark .comma number).bind fun first =>
  (afterMark .comma number).bind fun second =>
  (afterMark .comma number).bind fun third =>
  (afterMark .comma (word .commSource Party.ofWord?)).bind fun speaker =>
  (afterMark .comma identifier).map fun comm => ⟨event, hearer, first, second, third, speaker, comm⟩

def message : Parser Message :=
  (integer.andMaybe .comma names).map fun (id, args) => ⟨id, args.getD []⟩

def objective : Parser Objective :=
  identifier.bind fun target => (afterMark .comma message).map fun message => ⟨target, message⟩

def difficulty : Parser Difficulty :=
  number.bind fun lower => (afterMark .comma number).map fun upper => ⟨lower, upper⟩

/-- The names that follow the number of an offer item, each after a comma. A comma that no such name
follows is passed over too: it stands before the next item or at the end. -/
def itemArgs : List Token → List String × List Token
  | comma :: name :: rest =>
      if comma.kind = .comma then
        if name.kind = .identifier ∧ (Plurality.ofMarker? name.text).isNone then
          let (args, tail) := itemArgs rest
          (name.text :: args, tail)
        else ([], name :: rest)
      else ([], comma :: name :: rest)
  | [last] => if last.kind = .comma then ([], []) else ([], [last])
  | [] => ([], [])

theorem itemArgs_length_le (tokens : List Token) : (itemArgs tokens).2.length ≤ tokens.length := by
  fun_induction itemArgs tokens with
  | case1 comma name rest isComma isArg args tail split ih =>
      rw [split] at ih
      exact Nat.le_succ_of_le (Nat.le_succ_of_le ih)
  | case2 => exact Nat.le_succ _
  | case3 => exact Nat.le_refl _
  | case4 => exact Nat.le_succ _
  | case5 => exact Nat.le_refl _
  | case6 => exact Nat.le_refl _

/-- The part of an offer item after its plurality. -/
def itemMessage : Parser Message := fun ending tokens =>
  match integer ending tokens with
  | .error fault => .error fault
  | .ok ⟨id, rest, shorter⟩ =>
      .ok ⟨⟨id, (itemArgs rest).1⟩, (itemArgs rest).2,
        Nat.lt_of_le_of_lt (itemArgs_length_le rest) shorter⟩

/-- The plurality that a token in front of an offer item marks. -/
def pluralityMarker? (token : Token) : Option Plurality :=
  if token.kind = .identifier then Plurality.ofMarker? token.text else none

def offerItem : Parser OfferItem :=
  byFirst pluralityMarker?
    (fun plurality => (afterMark .comma itemMessage).map fun message => ⟨plurality, message⟩)
    (itemMessage.map fun message => ⟨.none, message⟩)

def offer : Parser Offer :=
  (word .offerMode OfferMode.ofWord?).bind fun mode =>
  (afterMark .leftParen (beforeMark .rightParen (upTo .rightParen offerItem))).map fun items =>
    ⟨mode, items⟩

def offers : Parser (List Offer) :=
  afterMark .leftParen (beforeMark .rightParen (separated .comma offer))

/-- The parser for the value after a field keyword. -/
def field? : String → Option (Parser Field)
  | "comm_sequence" => some (comm.map .comm)
  | "failure_text" => some (message.map .failure)
  | "reward_text" => some (message.map .reward)
  | "objective_text" => some (objective.map .objective)
  | "offer_text" => some (offers.map .offers)
  | "difficulty" => some (difficulty.map .difficulty)
  | "weight" => some (integer.map .weight)
  | "allowable_zone_types" => some (names.map .zones)
  | "offer_group" => some (identifier.map .offerGroup)
  | "hostile_group" => some (identifier.map .hostileGroup)
  | _ => none

/-! ## Statements -/

/-- The parser for a statement that holds no others, after its keyword. -/
def leaf? (pos : Pos) (keyword : String) : Option (Parser (Statement Pos)) :=
  match keyword with
  | "call" => some (beforeMark .semicolon (identifier.map (.call pos)))
  | "err_unimplemented" => some ((token .semicolon).map fun _ => .unimplemented pos)
  | "doc" => some (beforeMark .semicolon (identifier.map (.doc pos)))
  | _ => (field? keyword).map fun parser => beforeMark .semicolon (parser.map (.field pos))

def groupDeclaration : Parser Group :=
  identifier.bind fun name => (beforeMark .semicolon names).map fun factions => ⟨name, factions⟩

/-- The condition after `if` or `elif`. -/
def condition : Parser Condition :=
  byFirst (fun token => if token.isWord "group" then some () else none)
    (fun _ => (afterMark .leftParen (beforeMark .rightParen identifier)).map .group)
    (identifier.map .named)

/-- The word that ends the body of a sub. -/
def endsSub (token : Token) : Bool :=
  token.isWord "end"

/-- The words that end a block of an `if`. -/
def endsBlock (token : Token) : Bool :=
  token.isWord "end" || token.isWord "else" || token.isWord "elif"

/-- An `if` needs a second block, and its last block must not test a named condition. -/
def checkBlocks (stop : Pos) (blocks : List (Block Pos)) : Except Fault (List (Block Pos)) :=
  if blocks.length = 1 then .error ⟨stop, .loneIf⟩
  else
    match blocks.getLast?.map Block.condition with
    | some (.named name) => .error ⟨stop, .openElif name⟩
    | _ => .ok blocks

mutual

/-- A statement, given its first token. -/
def statement (topLevel : Bool) (head : Token) (ending : Ending) (tokens : List Token) :
    Except Fault (Read tokens (Statement Pos)) :=
  if head.kind ≠ .identifier then .error ⟨head.pos, .unexpected head.text⟩
  else if (head.text = "sub" ∨ head.text = "group") ∧ topLevel = false then
    .error ⟨head.pos, .nestedDeclaration head.text⟩
  else if head.text = "sub" then
    match identifier ending tokens with
    | .error fault => .error fault
    | .ok ⟨name, rest, shorter⟩ =>
        match body endsSub ending rest with
        | .error fault => .error fault
        | .ok ⟨(statements, _), tail, fewer⟩ =>
            .ok ⟨.sub head.pos name statements, tail, Nat.lt_trans fewer shorter⟩
  else if head.text = "group" then (groupDeclaration.map (.group head.pos)) ending tokens
  else if head.text = "if" then
    match condition ending tokens with
    | .error fault => .error fault
    | .ok ⟨condition, rest, shorter⟩ =>
        match blocks condition ending rest with
        | .error fault => .error fault
        | .ok ⟨(blocks, stop), tail, fewer⟩ =>
            match checkBlocks stop blocks with
            | .error fault => .error fault
            | .ok blocks => .ok ⟨.choice head.pos blocks, tail, Nat.lt_trans fewer shorter⟩
  else
    match leaf? head.pos head.text with
    | some parser => parser ending tokens
    | none => .error ⟨head.pos, .unexpected head.text⟩
termination_by 2 * tokens.length + 1

/-- Statements up to a token that ends them; that token is passed over and returned. -/
def body (ends : Token → Bool) (ending : Ending) (tokens : List Token) :
    Except Fault (Read tokens (List (Statement Pos) × Token)) :=
  match tokens with
  | [] => .error (ending.toFault fun _ => .missingEnd)
  | head :: rest =>
      if ends head then .ok ⟨([], head), rest, Nat.lt_succ_self _⟩
      else
        match statement false head ending rest with
        | .error fault => .error fault
        | .ok ⟨first, later, shorter⟩ =>
            match body ends ending later with
            | .error fault => .error fault
            | .ok ⟨(others, stop), tail, fewer⟩ =>
                .ok ⟨(first :: others, stop), tail,
                  Nat.lt_trans fewer (Nat.lt_trans shorter (Nat.lt_succ_self _))⟩
termination_by 2 * tokens.length

/-- The blocks of an `if` from the one with the given condition on, and the place of the `end` after
them. Nothing but `end` may follow the `else` block. -/
def blocks (condition : Condition) (ending : Ending) (tokens : List Token) :
    Except Fault (Read tokens (List (Block Pos) × Pos)) :=
  match body endsBlock ending tokens with
  | .error fault => .error fault
  | .ok ⟨(statements, stop), rest, shorter⟩ =>
      if stop.text = "end" then .ok ⟨([.mk condition statements], stop.pos), rest, shorter⟩
      else if condition = .otherwise then .error ⟨stop.pos, .endExpected⟩
      else if stop.text = "else" then
        match blocks .otherwise ending rest with
        | .error fault => .error fault
        | .ok ⟨(others, last), tail, fewer⟩ =>
            .ok ⟨(.mk condition statements :: others, last), tail, Nat.lt_trans fewer shorter⟩
      else
        match Parser.condition ending rest with
        | .error fault => .error fault
        | .ok ⟨next, later, less⟩ =>
            match blocks next ending later with
            | .error fault => .error fault
            | .ok ⟨(others, last), tail, fewer⟩ =>
                .ok ⟨(.mk condition statements :: others, last), tail,
                  Nat.lt_trans fewer (Nat.lt_trans less shorter)⟩
termination_by 2 * tokens.length + 1

end

/-- All statements of a token list. -/
def script (ending : Ending) (tokens : List Token) : Except Fault Program :=
  match tokens with
  | [] =>
      match ending with
      | .endOfFile _ => .ok []
      | .fault fault => .error fault
  | head :: rest =>
      match statement true head ending rest with
      | .error fault => .error fault
      | .ok ⟨first, later, _shorter⟩ =>
          match script ending later with
          | .error fault => .error fault
          | .ok others => .ok (first :: others)
termination_by tokens.length
decreasing_by exact Nat.lt_trans _shorter (Nat.lt_succ_self _)

end Parser

/-- The statements of a script. -/
def parse (text : String) : Except Fault Program :=
  let list := TokenList.ofText text
  Parser.script list.ending list.tokens

end MissionGraph.Script
