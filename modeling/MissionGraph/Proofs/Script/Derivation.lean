import MissionGraph.Number.Single
import MissionGraph.Script.Statement
import MissionGraph.Text.Case

/-!
# The grammar of scripts

Which tokens derive which statements, said production by production and without a word on how the tokens
are read. The words in front of offers and offer items are compared by a spelling, since whether their
letter case counts is part of the grammar.
-/

namespace MissionGraph.Script.Derivation

open Mission (Comm Difficulty Field Message Objective Offer OfferItem OfferMode Party Plurality)
open Number (Single)

/-- Which texts spell a word. -/
abbrev Spelling := String → String → Prop

namespace Spelling

/-- A word is spelled by itself only. -/
def exact : Spelling := fun word text => word = text

/-- The case of the letters does not count. -/
def anyCase : Spelling := fun word text => Text.sameLetters word text = true

end Spelling

/-! ## Words and numbers -/

/-- A name. -/
inductive IsName : List Token → String → Prop where
  | mk {token : Token} (isName : token.kind = .identifier) : IsName [token] token.text

/-- An integer that fits into 32 bits. -/
inductive IsInteger : List Token → Int32 → Prop where
  | mk {token : Token} (isInteger : token.kind = .integer)
      (inRange : (Number.ofDigits token.text.toList : Int) ≤ Int32.maxValue.toInt) :
      IsInteger [token] (Int32.ofInt (Number.ofDigits token.text.toList))

/-- A number with or without a fraction. -/
inductive IsNumber : Token → Single → Prop where
  | whole {token : Token} (isInteger : token.kind = .integer) :
      IsNumber token (.ofDecimal ⟨false, Number.ofDigits token.text.toList, 0⟩)
  | fraction {token : Token} {whole fraction : List Char} (isFloat : token.kind = .float)
      (parts : token.text.toList = whole ++ '.' :: fraction)
      (digits : ∀ c ∈ whole ++ fraction, Number.isDigit c = true) :
      IsNumber token (.ofDecimal ⟨false, Number.ofDigits (whole ++ fraction), -(fraction.length : Int)⟩)

/-- A word that stands for a value, in the spelling. -/
inductive IsWord {α : Type} (spelled : Spelling) (word : α → String) : Token → α → Prop where
  | mk {token : Token} {value : α} (isName : token.kind = .identifier) (spells : spelled (word value) token.text) :
      IsWord spelled word token value

/-! ## Lists -/

variable {α : Type}

/-- Further members of a list, each after a comma. -/
inductive More (form : List Token → α → Prop) : List Token → List α → Prop where
  | nil : More form [] []
  | cons {comma : Token} {first rest : List Token} {value : α} {others : List α} (isComma : comma.kind = .comma)
      (member : form first value) (later : More form rest others) :
      More form (comma :: (first ++ rest)) (value :: others)

/-- One member or several with commas between them. -/
inductive Several (form : List Token → α → Prop) : List Token → List α → Prop where
  | mk {first rest : List Token} {value : α} {others : List α} (member : form first value)
      (later : More form rest others) : Several form (first ++ rest) (value :: others)

/-- A comma or nothing. -/
inductive MaybeComma : List Token → Prop where
  | absent : MaybeComma []
  | present {comma : Token} (isComma : comma.kind = .comma) : MaybeComma [comma]

/-! ## Field values -/

/-- A name that could not be taken for the plurality of an offer item. -/
def IsArgument (spelled : Spelling) (tokens : List Token) (name : String) : Prop :=
  IsName tokens name ∧ ¬ spelled Plurality.singular.word name ∧ ¬ spelled Plurality.plural.word name

/-- A message number and its arguments. -/
inductive IsMessage (argument : List Token → String → Prop) : List Token → Message → Prop where
  | mk {number : Token} {rest : List Token} {id : Int32} {args : List String} (isId : IsInteger [number] id)
      (areArgs : More argument rest args) : IsMessage argument (number :: rest) ⟨id, args⟩

/-- A message of an offer, with its plurality in front unless it has none. -/
inductive IsItem (spelled : Spelling) : List Token → OfferItem → Prop where
  | plain {tokens : List Token} {message : Message} (isMessage : IsMessage (IsArgument spelled) tokens message) :
      IsItem spelled tokens ⟨.none, message⟩
  | marked {marker comma : Token} {tokens : List Token} {plurality : Plurality} {message : Message}
      (isMarker : IsWord spelled Plurality.word marker plurality) (isMarked : plurality ≠ .none)
      (isComma : comma.kind = .comma) (isMessage : IsMessage (IsArgument spelled) tokens message) :
      IsItem spelled (marker :: comma :: tokens) ⟨plurality, message⟩

/-- Offer items; the commas between them and after the last one may be left out. -/
inductive AreItems (spelled : Spelling) : List Token → List OfferItem → Prop where
  | last {tokens mark : List Token} {item : OfferItem} (isItem : IsItem spelled tokens item)
      (isMark : MaybeComma mark) : AreItems spelled (tokens ++ mark) [item]
  | next {tokens mark rest : List Token} {item : OfferItem} {others : List OfferItem}
      (isItem : IsItem spelled tokens item) (isMark : MaybeComma mark) (later : AreItems spelled rest others) :
      AreItems spelled (tokens ++ mark ++ rest) (item :: others)

/-- What an entry does to the offer text, with its items in parentheses. -/
inductive IsOffer (spelled : Spelling) : List Token → Offer → Prop where
  | mk {mode left right : Token} {tokens : List Token} {value : OfferMode} {items : List OfferItem}
      (isMode : IsWord spelled OfferMode.word mode value) (isLeft : left.kind = .leftParen)
      (areItems : AreItems spelled tokens items) (isRight : right.kind = .rightParen) :
      IsOffer spelled (mode :: left :: (tokens ++ [right])) ⟨value, items⟩

/-- Entries of an offer text in parentheses. -/
inductive AreOffers (spelled : Spelling) : List Token → List Offer → Prop where
  | mk {left right : Token} {tokens : List Token} {entries : List Offer} (isLeft : left.kind = .leftParen)
      (areOffers : Several (IsOffer spelled) tokens entries) (isRight : right.kind = .rightParen) :
      AreOffers spelled (left :: (tokens ++ [right])) entries

/-- An event, who hears of it, three numbers, who speaks, and what is said. -/
inductive IsComm : List Token → Comm → Prop where
  | mk {event hearer first second third speaker said c₁ c₂ c₃ c₄ c₅ c₆ : Token} {heard spoke : Party}
      {one two three : Single} (isEvent : event.kind = .identifier)
      (isHearer : IsWord .anyCase Party.word hearer heard) (isFirst : IsNumber first one)
      (isSecond : IsNumber second two) (isThird : IsNumber third three)
      (isSpeaker : IsWord .anyCase Party.word speaker spoke) (isSaid : said.kind = .identifier)
      (areCommas : ∀ mark ∈ [c₁, c₂, c₃, c₄, c₅, c₆], mark.kind = .comma) :
      IsComm [event, c₁, hearer, c₂, first, c₃, second, c₄, third, c₅, speaker, c₆, said]
        ⟨event.text, heard, one, two, three, spoke, said.text⟩

/-- A target and a message about it. -/
inductive IsObjective : List Token → Objective → Prop where
  | mk {target comma : Token} {tokens : List Token} {message : Message} (isTarget : target.kind = .identifier)
      (isComma : comma.kind = .comma) (isMessage : IsMessage IsName tokens message) :
      IsObjective (target :: comma :: tokens) ⟨target.text, message⟩

/-- A lower and an upper bound. -/
inductive IsDifficulty : List Token → Difficulty → Prop where
  | mk {first comma second : Token} {lower upper : Single} (isLower : IsNumber first lower)
      (isComma : comma.kind = .comma) (isUpper : IsNumber second upper) :
      IsDifficulty [first, comma, second] ⟨lower, upper⟩

/-- A field keyword and the value after it. -/
inductive IsField (spelled : Spelling) : String → List Token → Field → Prop where
  | comm {tokens : List Token} {value : Comm} (isComm : IsComm tokens value) :
      IsField spelled "comm_sequence" tokens (.comm value)
  | failure {tokens : List Token} {value : Message} (isMessage : IsMessage IsName tokens value) :
      IsField spelled "failure_text" tokens (.failure value)
  | reward {tokens : List Token} {value : Message} (isMessage : IsMessage IsName tokens value) :
      IsField spelled "reward_text" tokens (.reward value)
  | objective {tokens : List Token} {value : Objective} (isObjective : IsObjective tokens value) :
      IsField spelled "objective_text" tokens (.objective value)
  | offers {tokens : List Token} {entries : List Offer} (areOffers : AreOffers spelled tokens entries) :
      IsField spelled "offer_text" tokens (.offers entries)
  | difficulty {tokens : List Token} {value : Difficulty} (isDifficulty : IsDifficulty tokens value) :
      IsField spelled "difficulty" tokens (.difficulty value)
  | weight {tokens : List Token} {value : Int32} (isInteger : IsInteger tokens value) :
      IsField spelled "weight" tokens (.weight value)
  | zones {tokens : List Token} {names : List String} (areNames : Several IsName tokens names) :
      IsField spelled "allowable_zone_types" tokens (.zones names)
  | offerGroup {tokens : List Token} {name : String} (isName : IsName tokens name) :
      IsField spelled "offer_group" tokens (.offerGroup name)
  | hostileGroup {tokens : List Token} {name : String} (isName : IsName tokens name) :
      IsField spelled "hostile_group" tokens (.hostileGroup name)

/-! ## Statements -/

/-- What stands after `if` or `elif`. -/
inductive IsCondition : List Token → Condition → Prop where
  | group {word left name right : Token} (isWord : word.isWord "group" = true) (isLeft : left.kind = .leftParen)
      (isName : name.kind = .identifier) (isRight : right.kind = .rightParen) :
      IsCondition [word, left, name, right] (.group name.text)
  | named {name : Token} (isName : name.kind = .identifier) (notGroup : name.text ≠ "group") :
      IsCondition [name] (.named name.text)

/-- The last of several blocks is the `else` block or tests for a group. -/
def Closed (blocks : List (Block Pos)) : Prop :=
  ∃ earlier last, blocks = earlier ++ [last] ∧ earlier ≠ [] ∧
    (last.condition = .otherwise ∨ ∃ name, last.condition = .group name)

/-- The phrases that statements are made of: a statement, a list of them, and the blocks between `if` and
`end`. -/
inductive Phrase where
  | statement (statement : Statement Pos)
  | body (statements : List (Statement Pos))
  | blocks (blocks : List (Block Pos))

/-- The tokens derive the phrase. A statement is noted at the place of its keyword. -/
inductive Derives (spelled : Spelling) : List Token → Phrase → Prop where
  | call {head name stop : Token} (isCall : head.isWord "call" = true) (isName : name.kind = .identifier)
      (isStop : stop.kind = .semicolon) :
      Derives spelled [head, name, stop] (.statement (.call head.pos name.text))
  | unimplemented {head stop : Token} (isUnimplemented : head.isWord "err_unimplemented" = true)
      (isStop : stop.kind = .semicolon) : Derives spelled [head, stop] (.statement (.unimplemented head.pos))
  | doc {head name stop : Token} (isDoc : head.isWord "doc" = true) (isName : name.kind = .identifier)
      (isStop : stop.kind = .semicolon) :
      Derives spelled [head, name, stop] (.statement (.doc head.pos name.text))
  | field {head stop : Token} {keyword : String} {tokens : List Token} {value : Field}
      (isKeyword : head.isWord keyword = true) (isField : IsField spelled keyword tokens value)
      (isStop : stop.kind = .semicolon) :
      Derives spelled (head :: (tokens ++ [stop])) (.statement (.field head.pos value))
  | choice {head stop : Token} {tokens : List Token} {blocks : List (Block Pos)}
      (isIf : head.isWord "if" = true) (inner : Derives spelled tokens (.blocks blocks)) (closed : Closed blocks)
      (isEnd : stop.isWord "end" = true) :
      Derives spelled (head :: (tokens ++ [stop])) (.statement (.choice head.pos blocks))
  | nothing : Derives spelled [] (.body [])
  | next {first rest : List Token} {statement : Statement Pos} {others : List (Statement Pos)}
      (isStatement : Derives spelled first (.statement statement)) (later : Derives spelled rest (.body others)) :
      Derives spelled (first ++ rest) (.body (statement :: others))
  | lastBlock {test tokens : List Token} {condition : Condition} {statements : List (Statement Pos)}
      (isCondition : IsCondition test condition) (inner : Derives spelled tokens (.body statements)) :
      Derives spelled (test ++ tokens) (.blocks [.mk condition statements])
  | elseBlock {test tokens rest : List Token} {word : Token} {condition : Condition}
      {statements others : List (Statement Pos)} (isCondition : IsCondition test condition)
      (inner : Derives spelled tokens (.body statements)) (isElse : word.isWord "else" = true)
      (last : Derives spelled rest (.body others)) :
      Derives spelled (test ++ (tokens ++ word :: rest))
        (.blocks [.mk condition statements, .mk .otherwise others])
  | elifBlock {test tokens rest : List Token} {word : Token} {condition : Condition}
      {statements : List (Statement Pos)} {blocks : List (Block Pos)} (isCondition : IsCondition test condition)
      (inner : Derives spelled tokens (.body statements)) (isElif : word.isWord "elif" = true)
      (later : Derives spelled rest (.blocks blocks)) :
      Derives spelled (test ++ (tokens ++ word :: rest)) (.blocks (.mk condition statements :: blocks))

/-- The statements of the outermost level: declarations stand there only. -/
inductive Outermost (spelled : Spelling) : List Token → Statement Pos → Prop where
  | sub {head name stop : Token} {tokens : List Token} {statements : List (Statement Pos)}
      (isSub : head.isWord "sub" = true) (isName : name.kind = .identifier)
      (inner : Derives spelled tokens (.body statements)) (isEnd : stop.isWord "end" = true) :
      Outermost spelled (head :: name :: (tokens ++ [stop])) (.sub head.pos name.text statements)
  | group {head name stop : Token} {tokens : List Token} {factions : List String}
      (isGroup : head.isWord "group" = true) (isName : name.kind = .identifier)
      (areNames : Several IsName tokens factions) (isStop : stop.kind = .semicolon) :
      Outermost spelled (head :: name :: (tokens ++ [stop])) (.group head.pos ⟨name.text, factions⟩)
  | statement {tokens : List Token} {statement : Statement Pos}
      (derives : Derives spelled tokens (.statement statement)) : Outermost spelled tokens statement

/-- The tokens derive the script. -/
inductive IsScript (spelled : Spelling) : List Token → Program → Prop where
  | nil : IsScript spelled [] []
  | cons {first rest : List Token} {statement : Statement Pos} {others : Program}
      (outermost : Outermost spelled first statement) (later : IsScript spelled rest others) :
      IsScript spelled (first ++ rest) (statement :: others)

end MissionGraph.Script.Derivation
