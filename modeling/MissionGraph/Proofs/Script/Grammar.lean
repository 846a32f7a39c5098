import MissionGraph.Proofs.Number.Digits
import MissionGraph.Proofs.Script.Reading
import MissionGraph.Proofs.Script.WellFormed

/-!
# What parsed scripts look like

The tokens of a text are names, digits and marks, and the statements read from such tokens can all be
written down.
-/

namespace MissionGraph.Script

open Mission (Comm Field Message Objective Offer OfferItem OfferMode Party Plurality Difficulty)
open Number (Single isDigit)

namespace Token

/-- The text of the token is as its class demands. -/
def lexed (token : Token) : Bool :=
  match token.kind with
  | .identifier => isName token.text
  | .integer => !token.text.toList.isEmpty && token.text.toList.all isDigit
  | .float => !(token.text.toList.takeWhile isDigit).isEmpty &&
      match token.text.toList.dropWhile isDigit with
      | '.' :: fraction => !fraction.isEmpty && fraction.all isDigit
      | _ => false
  | _ => true

end Token

theorem lexed_of_numberLexeme {digits rest text tail : List Char} {kind : TokenKind}
    (some_digit : digits ≠ []) (all_digits : ∀ d ∈ digits, isDigit d = true)
    (found : numberLexeme digits rest = .token kind text tail) (pos : Pos) :
    (Token.mk kind (String.ofList text) pos).lexed = true := by
  unfold numberLexeme at found
  split at found
  · cases found
  · rename_i d more
    split at found
    · rename_i digit
      cases found
      have whole : (digits ++ '.' :: (d :: more).takeWhile isDigit).takeWhile isDigit = digits := by
        rw [List.takeWhile_append_of_pos all_digits, List.takeWhile_cons_of_neg (by decide), List.append_nil]
      have fraction : (digits ++ '.' :: (d :: more).takeWhile isDigit).dropWhile isDigit =
          '.' :: (d :: more).takeWhile isDigit := by
        rw [List.dropWhile_append_of_pos all_digits, List.dropWhile_cons_of_neg (by decide)]
      simp only [Token.lexed, String.toList_ofList, whole, fraction, List.all_takeWhile]
      simp [some_digit, digit]
    · cases found
  · cases found
    have all_passed : digits.all isDigit = true := List.all_eq_true.mpr all_digits
    simp [Token.lexed, some_digit, all_passed]

theorem lexed_of_lexeme {c : Char} {rest text tail : List Char} {kind : TokenKind}
    (found : lexeme c rest = .token kind text tail) (pos : Pos) :
    (Token.mk kind (String.ofList text) pos).lexed = true := by
  unfold lexeme at found
  split at found
  · rename_i mark isMark
    cases found
    unfold mark? at isMark
    split at isMark
    · cases isMark
      rfl
    · split at isMark
      · cases isMark
        rfl
      · split at isMark
        · cases isMark
          rfl
        · split at isMark
          · cases isMark
            rfl
          · cases isMark
  · split at found
    · rename_i digit
      refine lexed_of_numberLexeme (List.cons_ne_nil _ _) ?_ found pos
      exact List.forall_mem_cons.mpr ⟨digit, List.all_eq_true.mp List.all_takeWhile⟩
    · split at found
      · rename_i isStart
        cases found
        simp [Token.lexed, isName, isStart, List.all_takeWhile]
      · cases found

theorem lexed_of_scan {cursor next : Cursor} {token : Token} (found : cursor.scan = .token token next) :
    token.lexed = true := by
  unfold Cursor.scan at found
  revert found
  generalize splitGap false cursor.rest = parts
  obtain ⟨gap, body⟩ := parts
  intro found
  cases body with
  | nil => cases found
  | cons c tail =>
      simp only at found
      split at found
      · rename_i taken
        cases found
        exact lexed_of_lexeme taken _
      · cases found

/-- All tokens of a text have the form of their class. -/
theorem lexed_of_mem_tokenList (cursor : Cursor) : ∀ token ∈ cursor.tokenList.tokens, token.lexed = true := by
  fun_induction Cursor.tokenList cursor with
  | case1 cursor token next found later ih =>
      intro other member
      rcases List.mem_cons.mp member with rfl | isLater
      · exact lexed_of_scan found
      · exact ih other isLater
  | case2 => exact fun _ member => absurd member List.not_mem_nil
  | case3 => exact fun _ member => absurd member List.not_mem_nil

/-! ## Values -/

theorem digits_of_integer {token : Token} (isInteger : token.kind = .integer) (lexed : token.lexed = true) :
    Number.Digits token.text.toList := by
  rw [Token.lexed, isInteger] at lexed
  simpa [Number.Digits] using lexed

theorem unsigned_ofFraction (numerator denominator : Nat) :
    (Single.ofFraction false numerator denominator).unsigned = true := by
  have parts (mantissa exponent : Nat) : (Single.ofParts false mantissa exponent).unsigned = true := by
    unfold Single.ofParts
    split <;> rfl
  unfold Single.ofFraction
  dsimp only
  split <;> exact parts _ _

theorem unsigned_ofDecimal (coefficient : Nat) (exponent : Int) :
    (Single.ofDecimal ⟨false, coefficient, exponent⟩).unsigned = true := by
  unfold Single.ofDecimal
  dsimp only
  split
  · exact unsigned_ofFraction _ _
  · split
    · rfl
    · split <;> exact unsigned_ofFraction _ _

/-- The number of a token has no sign. -/
theorem unsigned_of_read? {token : Token} (fits : Parser.Fits .float token) (lexed : token.lexed = true)
    {value : Single} (read : Single.read? token.text.toList = some value) : value.unsigned = true := by
  rcases fits with isFloat | ⟨_, isInteger⟩
  · rw [Token.lexed, isFloat] at lexed
    simp only [Bool.and_eq_true, Bool.not_eq_true', List.isEmpty_eq_false_iff] at lexed
    obtain ⟨nonempty, rest⟩ := lexed
    split at rest
    · rename_i fraction dropped
      have parts : token.text.toList.takeWhile isDigit ++ '.' :: fraction = token.text.toList := by
        rw [← dropped, List.takeWhile_append_dropWhile]
      have digits : Number.Digits (token.text.toList.takeWhile isDigit) :=
        ⟨nonempty, List.all_eq_true.mp List.all_takeWhile⟩
      simp only [Bool.and_eq_true, List.all_eq_true] at rest
      rw [Single.read?, ← parts, Number.Decimal.read?_fraction digits rest.2] at read
      cases read
      exact unsigned_ofDecimal _ _
    · cases rest
  · rw [Single.read?, Number.Decimal.read?_digits (digits_of_integer isInteger lexed)] at read
    cases read
    exact unsigned_ofDecimal _ _

namespace Parser

variable {α β : Type}

/-- All tokens have the form of their class. -/
def Lexed (tokens : List Token) : Prop :=
  ∀ token ∈ tokens, token.lexed = true

/-- From tokens that have the form of their class the parser reads good values only, and the tokens it
leaves have that form too. -/
def Yields (parser : Parser α) (good : α → Prop) : Prop :=
  ∀ ending tokens value rest, Lexed tokens → Reads parser ending tokens value rest → good value ∧ Lexed rest

theorem Yields.map {parser : Parser α} {good : α → Prop} {f : α → β} {better : β → Prop}
    (yields : Yields parser good) (implies : ∀ value, good value → better (f value)) :
    Yields (parser.map f) better := by
  intro ending tokens value rest lexed reads
  obtain ⟨inner, readsInner, rfl⟩ := reads_map_iff.mp reads
  obtain ⟨isGood, lexedRest⟩ := yields _ _ _ _ lexed readsInner
  exact ⟨implies inner isGood, lexedRest⟩

theorem Yields.bind {first : Parser α} {second : α → Parser β} {good : α → Prop} {better : β → Prop}
    (yields : Yields first good) (later : ∀ value, good value → Yields (second value) better) :
    Yields (first.bind second) better := by
  intro ending tokens value rest lexed reads
  obtain ⟨inner, middle, readsFirst, readsSecond⟩ := reads_bind_iff.mp reads
  obtain ⟨isGood, lexedMiddle⟩ := yields _ _ _ _ lexed readsFirst
  exact later inner isGood _ _ _ _ lexedMiddle readsSecond

theorem Yields.byFirst {choose : Token → Option β} {chosen : β → Parser α} {other : Parser α}
    {good : α → Prop} (yieldsChosen : ∀ token choice, choose token = some choice → Yields (chosen choice) good)
    (yieldsOther : ∀ ending tokens value rest, Lexed tokens →
      (∀ first, tokens.head? = some first → choose first = none) → Reads other ending tokens value rest →
      good value ∧ Lexed rest) :
    Yields (byFirst choose chosen other) good := by
  intro ending tokens value rest lexed reads
  rcases reads_byFirst_iff.mp reads with ⟨first, tail, choice, rfl, picked, readsChosen⟩ | ⟨unpicked, readsOther⟩
  · exact yieldsChosen first choice picked _ _ _ _ (fun token member =>
      lexed token (List.mem_cons_of_mem _ member)) readsChosen
  · exact yieldsOther _ _ _ _ lexed unpicked readsOther

theorem Yields.andMaybe {first : Parser α} {kind : TokenKind} {second : Parser β} {good : α → Prop}
    {better : β → Prop} (yields : Yields first good) (later : Yields second better) :
    Yields (first.andMaybe kind second) fun value =>
      good value.1 ∧ ∀ other, value.2 = some other → better other := by
  intro ending tokens value rest lexed reads
  rcases reads_andMaybe_iff.mp reads with
    ⟨inner, readsFirst, _, rfl⟩ | ⟨inner, next, tail, other, readsFirst, _, readsSecond, rfl⟩
  · obtain ⟨isGood, lexedRest⟩ := yields _ _ _ _ lexed readsFirst
    exact ⟨⟨isGood, nofun⟩, lexedRest⟩
  · obtain ⟨isGood, lexedMiddle⟩ := yields _ _ _ _ lexed readsFirst
    obtain ⟨isBetter, lexedRest⟩ := later _ _ _ _ (fun token member =>
      lexedMiddle token (List.mem_cons_of_mem _ member)) readsSecond
    refine ⟨⟨isGood, ?_⟩, lexedRest⟩
    rintro _ ⟨⟩
    exact isBetter

theorem Yields.separated {kind : TokenKind} {item : Parser α} {good : α → Prop} (yields : Yields item good) :
    Yields (separated kind item) fun values => values ≠ [] ∧ ∀ value ∈ values, good value := by
  intro ending tokens
  induction size : tokens.length using Nat.strongRecOn generalizing tokens with
  | ind count ih =>
      intro values rest lexed reads
      rcases reads_separated_iff.mp reads with
        ⟨value, readsItem, _, rfl⟩ | ⟨value, next, tail, others, readsItem, _, readsRest, rfl⟩
      · obtain ⟨isGood, lexedRest⟩ := yields _ _ _ _ lexed readsItem
        exact ⟨⟨List.cons_ne_nil _ _, by simpa using isGood⟩, lexedRest⟩
      · obtain ⟨isGood, lexedMiddle⟩ := yields _ _ _ _ lexed readsItem
        have fewer : tail.length < count :=
          size ▸ Nat.lt_trans (Nat.lt_succ_self _) readsItem.shorter
        obtain ⟨⟨_, othersGood⟩, lexedRest⟩ := ih _ fewer tail rfl others rest
          (fun token member => lexedMiddle token (List.mem_cons_of_mem _ member)) readsRest
        exact ⟨⟨List.cons_ne_nil _ _, List.forall_mem_cons.mpr ⟨isGood, othersGood⟩⟩, lexedRest⟩

theorem Yields.upTo {kind : TokenKind} {item : Parser α} {good : α → Prop} (yields : Yields item good) :
    Yields (upTo kind item) fun values => values ≠ [] ∧ ∀ value ∈ values, good value := by
  intro ending tokens
  induction size : tokens.length using Nat.strongRecOn generalizing tokens with
  | ind count ih =>
      intro values rest lexed reads
      rcases reads_upTo_iff.mp reads with
        ⟨value, readsItem, _, rfl⟩ | ⟨value, middle, others, readsItem, _, readsRest, rfl⟩
      · obtain ⟨isGood, lexedRest⟩ := yields _ _ _ _ lexed readsItem
        exact ⟨⟨List.cons_ne_nil _ _, by simpa using isGood⟩, lexedRest⟩
      · obtain ⟨isGood, lexedMiddle⟩ := yields _ _ _ _ lexed readsItem
        obtain ⟨⟨_, othersGood⟩, lexedRest⟩ :=
          ih _ (size ▸ readsItem.shorter) middle rfl others rest lexedMiddle readsRest
        exact ⟨⟨List.cons_ne_nil _ _, List.forall_mem_cons.mpr ⟨isGood, othersGood⟩⟩, lexedRest⟩

theorem yields_token (kind : TokenKind) :
    Yields (token kind) fun token => Fits kind token ∧ token.lexed = true := by
  intro ending tokens token rest lexed reads
  obtain ⟨rfl, fits⟩ := reads_token_iff.mp reads
  exact ⟨⟨fits, lexed token List.mem_cons_self⟩, fun other member => lexed other (List.mem_cons_of_mem _ member)⟩

theorem Yields.afterMark {kind : TokenKind} {parser : Parser α} {good : α → Prop}
    (yields : Yields parser good) : Yields (afterMark kind parser) good :=
  (yields_token kind).bind fun _ _ => yields

theorem Yields.beforeMark {kind : TokenKind} {parser : Parser α} {good : α → Prop}
    (yields : Yields parser good) : Yields (beforeMark kind parser) good :=
  yields.bind fun _ isGood => (yields_token kind).map fun _ _ => isGood

theorem yields_identifier : Yields identifier fun name => isName name = true := by
  intro ending tokens name rest lexed reads
  obtain ⟨token, rfl, isIdentifier, rfl⟩ := reads_identifier_iff.mp reads
  have formed := lexed token List.mem_cons_self
  rw [Token.lexed, isIdentifier] at formed
  exact ⟨formed, fun other member => lexed other (List.mem_cons_of_mem _ member)⟩

theorem yields_integer : Yields integer fun value => 0 ≤ value.toInt := by
  intro ending tokens value rest lexed reads
  obtain ⟨token, rfl, isInteger, read⟩ := reads_integer_iff.mp reads
  exact ⟨Number.toInt_nonneg_of_readInt32? (digits_of_integer isInteger (lexed token List.mem_cons_self)) read,
    fun other member => lexed other (List.mem_cons_of_mem _ member)⟩

theorem yields_number : Yields number fun value => value.unsigned = true := by
  intro ending tokens value rest lexed reads
  obtain ⟨token, rfl, fits, read⟩ := reads_number_iff.mp reads
  exact ⟨unsigned_of_read? fits (lexed token List.mem_cons_self) read,
    fun other member => lexed other (List.mem_cons_of_mem _ member)⟩

theorem yields_word (slot : Slot) (ofWord? : String → Option α) : Yields (word slot ofWord?) fun _ => True := by
  intro ending tokens value rest lexed reads
  obtain ⟨token, rfl, _, _⟩ := reads_word_iff.mp reads
  exact ⟨trivial, fun other member => lexed other (List.mem_cons_of_mem _ member)⟩

theorem yields_names : Yields names fun values => values ≠ [] ∧ ∀ name ∈ values, isName name = true :=
  yields_identifier.separated

theorem yields_comm : Yields comm fun value => value.wellFormed = true := by
  refine yields_identifier.bind fun event isEvent => ?_
  refine (yields_word _ _).afterMark.bind fun hearer _ => ?_
  refine yields_number.afterMark.bind fun first firstUnsigned => ?_
  refine yields_number.afterMark.bind fun second secondUnsigned => ?_
  refine yields_number.afterMark.bind fun third thirdUnsigned => ?_
  refine (yields_word _ _).afterMark.bind fun speaker _ => ?_
  refine yields_identifier.afterMark.map fun said isSaid => ?_
  simp [Comm.wellFormed, Comm.numbers, isEvent, firstUnsigned, secondUnsigned, thirdUnsigned, isSaid]

theorem yields_message : Yields message fun value => value.wellFormed = true := by
  refine (yields_integer.andMaybe yields_names).map ?_
  rintro ⟨id, args⟩ ⟨nonnegative, areNames⟩
  cases args with
  | none => simpa [Message.wellFormed] using nonnegative
  | some args => simpa [Message.wellFormed] using ⟨nonnegative, (areNames args rfl).2⟩

theorem yields_objective : Yields objective fun value => value.wellFormed = true := by
  refine yields_identifier.bind fun target isTarget => yields_message.afterMark.map fun message formed => ?_
  simp [Objective.wellFormed, isTarget, formed]

theorem yields_difficulty : Yields difficulty fun value => value.wellFormed = true := by
  refine yields_number.bind fun lower lowerUnsigned => yields_number.afterMark.map fun upper upperUnsigned => ?_
  simp [Difficulty.wellFormed, Difficulty.numbers, lowerUnsigned, upperUnsigned]

/-- The names after the number of an offer item are names and no plurality. -/
theorem itemArgs_wellFormed {tokens : List Token} (lexed : Lexed tokens) :
    (∀ arg ∈ (itemArgs tokens).1, isName arg = true ∧ (Plurality.ofMarker? arg).isNone = true) ∧
      Lexed (itemArgs tokens).2 := by
  have noArgs : ∀ arg ∈ ([] : List String), isName arg = true ∧ (Plurality.ofMarker? arg).isNone = true :=
    fun _ member => absurd member List.not_mem_nil
  have noTokens : Lexed [] := fun _ member => absurd member List.not_mem_nil
  fun_induction itemArgs tokens with
  | case1 comma name rest isComma isArg args tail found ih =>
      rw [found] at ih
      obtain ⟨argsGood, lexedTail⟩ := ih fun token member =>
        lexed token (List.mem_cons_of_mem _ (List.mem_cons_of_mem _ member))
      have formed := lexed name (List.mem_cons_of_mem _ List.mem_cons_self)
      rw [Token.lexed, isArg.1] at formed
      exact ⟨List.forall_mem_cons.mpr ⟨⟨formed, isArg.2⟩, argsGood⟩, lexedTail⟩
  | case2 comma name rest isComma notArg =>
      exact ⟨noArgs, fun token member => lexed token (List.mem_cons_of_mem _ member)⟩
  | case3 comma name rest notComma => exact ⟨noArgs, lexed⟩
  | case4 last isComma => exact ⟨noArgs, noTokens⟩
  | case5 last notComma => exact ⟨noArgs, lexed⟩
  | case6 => exact ⟨noArgs, noTokens⟩

theorem reads_itemMessage_iff {ending : Ending} {tokens rest : List Token} {value : Message} :
    Reads itemMessage ending tokens value rest ↔
      ∃ id middle, Reads integer ending tokens id middle ∧ value = ⟨id, (itemArgs middle).1⟩ ∧
        rest = (itemArgs middle).2 := by
  constructor
  · rintro ⟨shorter, success⟩
    unfold itemMessage at success
    split at success
    · cases success
    · rename_i id middle fewer found
      cases success
      exact ⟨id, middle, ⟨fewer, found⟩, rfl, rfl⟩
  · rintro ⟨id, middle, ⟨fewer, found⟩, rfl, rfl⟩
    refine ⟨Nat.lt_of_le_of_lt (itemArgs_length_le middle) fewer, ?_⟩
    unfold itemMessage
    rw [found]

theorem yields_itemMessage : Yields itemMessage fun value => value.wellFormed = true ∧
    ∀ arg ∈ value.args, (Plurality.ofMarker? arg).isNone = true := by
  intro ending tokens value rest lexed reads
  obtain ⟨id, middle, readsId, rfl, rfl⟩ := reads_itemMessage_iff.mp reads
  obtain ⟨nonnegative, lexedMiddle⟩ := yields_integer _ _ _ _ lexed readsId
  obtain ⟨argsGood, lexedRest⟩ := itemArgs_wellFormed lexedMiddle
  refine ⟨⟨?_, fun arg member => (argsGood arg member).2⟩, lexedRest⟩
  simpa [Message.wellFormed] using ⟨nonnegative, fun arg member => (argsGood arg member).1⟩

theorem yields_offerItem : Yields offerItem fun value => value.wellFormed = true := by
  have formed (plurality : Plurality) (message : Message) (good : message.wellFormed = true ∧
      ∀ arg ∈ message.args, (Plurality.ofMarker? arg).isNone = true) :
      OfferItem.wellFormed ⟨plurality, message⟩ = true := by
    simpa [OfferItem.wellFormed, good.1] using good.2
  refine Yields.byFirst (fun _ plurality _ => ?_) fun ending tokens value rest lexed _ reads => ?_
  · exact yields_itemMessage.afterMark.map (formed plurality)
  · obtain ⟨message, readsMessage, rfl⟩ := reads_map_iff.mp reads
    obtain ⟨good, lexedRest⟩ := yields_itemMessage _ _ _ _ lexed readsMessage
    exact ⟨formed .none message good, lexedRest⟩

theorem yields_offer : Yields offer fun value => value.wellFormed = true := by
  refine (yields_word _ _).bind fun mode _ => yields_offerItem.upTo.beforeMark.afterMark.map fun items good => ?_
  simpa [Offer.wellFormed] using good

theorem yields_offers : Yields offers fun entries =>
    entries ≠ [] ∧ ∀ entry ∈ entries, entry.wellFormed = true :=
  yields_offer.separated.beforeMark.afterMark

theorem yields_field {keyword : String} {parser : Parser Field} (known : field? keyword = some parser) :
    Yields parser fun value => value.wellFormed = true := by
  unfold field? at known
  split at known <;> cases known
  · exact yields_comm.map fun _ good => good
  · exact yields_message.map fun _ good => good
  · exact yields_message.map fun _ good => good
  · exact yields_objective.map fun _ good => good
  · exact yields_offers.map fun _ good => by simpa [Field.wellFormed] using good
  · exact yields_difficulty.map fun _ good => good
  · exact yields_integer.map fun _ good => by simpa [Field.wellFormed] using good
  · exact yields_names.map fun _ good => by simpa [Field.wellFormed] using good
  · exact yields_identifier.map fun _ good => good
  · exact yields_identifier.map fun _ good => good

/-! ## Statements -/

theorem yields_leaf {pos : Pos} {keyword : String} {parser : Parser (Statement Pos)}
    (known : leaf? pos keyword = some parser) : Yields parser fun statement => WellFormed [statement] := by
  unfold leaf? at known
  split at known
  · cases known
    exact (yields_identifier.map fun name good => by simpa [WellFormed, Statement.walkBody,
      Statement.walk, Statement.wellFormed] using good).beforeMark
  · cases known
    exact (yields_token _).map fun _ _ => by simp [WellFormed, Statement.walkBody, Statement.walk,
      Statement.wellFormed]
  · cases known
    exact (yields_identifier.map fun name good => by simpa [WellFormed, Statement.walkBody,
      Statement.walk, Statement.wellFormed] using good).beforeMark
  · obtain ⟨fieldParser, isField, rfl⟩ := Option.map_eq_some_iff.mp known
    exact ((yields_field isField).map fun value good => by simpa [WellFormed, Statement.walkBody,
      Statement.walk, Statement.wellFormed] using good).beforeMark

theorem yields_groupDeclaration : Yields groupDeclaration fun group => group.wellFormed = true := by
  refine yields_identifier.bind fun name isName => yields_names.beforeMark.map fun factions good => ?_
  simpa [Group.wellFormed, isName] using good

theorem yields_condition : Yields condition fun found => found.wellFormed = true ∧ found ≠ .otherwise := by
  refine Yields.byFirst (fun _ _ _ => ?_) fun ending tokens value rest lexed notGroup reads => ?_
  · exact yields_identifier.beforeMark.afterMark.map fun name isName => ⟨isName, nofun⟩
  · obtain ⟨name, readsName, rfl⟩ := reads_map_iff.mp reads
    obtain ⟨isName, lexedRest⟩ := yields_identifier _ _ _ _ lexed readsName
    obtain ⟨token, rfl, isIdentifier, rfl⟩ := reads_identifier_iff.mp readsName
    have notWord : token.text ≠ "group" := by
      intro isWord
      have unpicked := notGroup token rfl
      simp [Token.isWord, isIdentifier, isWord] at unpicked
    exact ⟨⟨by simp [Condition.wellFormed, isName, notWord], nofun⟩, lexedRest⟩

/-- Blocks as they are read: their conditions can be written down, and `else` comes last. -/
structure Chained (blocks : List (Block Pos)) : Prop where
  nonempty : blocks ≠ []
  conditions : ∀ block ∈ blocks, block.condition.wellFormed = true
  otherwise : ∀ block ∈ blocks.dropLast, block.condition ≠ .otherwise

theorem Chained.cons {block : Block Pos} {blocks : List (Block Pos)} (chained : Chained blocks)
    (formed : block.condition.wellFormed = true) (tested : block.condition ≠ .otherwise) :
    Chained (block :: blocks) := by
  refine ⟨List.cons_ne_nil _ _, List.forall_mem_cons.mpr ⟨formed, chained.conditions⟩, ?_⟩
  rw [List.dropLast_cons_of_ne_nil chained.nonempty]
  exact List.forall_mem_cons.mpr ⟨tested, chained.otherwise⟩

theorem Chained.wellFormedBlocks {blocks : List (Block Pos)} (chained : Chained blocks)
    (complete : Complete blocks) : wellFormedBlocks blocks = true := by
  obtain ⟨nonempty, conditions, otherwise⟩ := chained
  obtain ⟨several, unnamed⟩ := complete
  fun_induction Script.wellFormedBlocks blocks with
  | case1 => exact absurd rfl nonempty
  | case2 block => exact absurd rfl several
  | case3 first last =>
      have lastUnnamed : last.condition.isNamed = false := by
        cases isCondition : last.condition with
        | named name => exact absurd (congrArg some isCondition) (unnamed name)
        | group name => rfl
        | otherwise => rfl
      simp [conditions first List.mem_cons_self, conditions last (List.mem_cons_of_mem _ List.mem_cons_self),
        otherwise first List.mem_cons_self, lastUnnamed]
  | case4 first rest notLone notPair ih =>
      obtain ⟨second, third, others, rfl⟩ : ∃ second third others, rest = second :: third :: others := by
        cases rest with
        | nil => exact absurd rfl notLone
        | cons second later =>
            cases later with
            | nil => exact absurd rfl (notPair second)
            | cons third others => exact ⟨second, third, others, rfl⟩
      have later := ih (List.cons_ne_nil _ _)
        (fun block member => conditions block (List.mem_cons_of_mem _ member))
        (fun block member => otherwise block (List.mem_cons_of_mem _ member)) (by simp) unnamed
      simp [conditions first List.mem_cons_self, otherwise first List.mem_cons_self, later]

/-- What is read from these tokens as statements up to a word can be written down. -/
def BodyFormed (tokens : List Token) : Prop :=
  ∀ ends ending statements stop rest, Reads (body ends) ending tokens (statements, stop) rest →
    WellFormed statements ∧ Lexed rest

/-- What is read from these tokens as the blocks of an `if` can be written down. -/
def BlocksFormed (tokens : List Token) : Prop :=
  ∀ condition ending found place rest, condition.wellFormed = true →
    Reads (blocks condition) ending tokens (found, place) rest →
    Chained found ∧ (∀ statement ∈ Statement.walkBlocks found, statement.wellFormed = true) ∧ Lexed rest

/-- What is read from these tokens as a statement can be written down. -/
def StatementFormed (tokens : List Token) : Prop :=
  ∀ topLevel head ending result rest, Reads (statement topLevel head) ending tokens result rest →
    WellFormed [result] ∧ Lexed rest

theorem wellFormed_cons_iff {statement : Statement Pos} {statements : List (Statement Pos)} :
    WellFormed (statement :: statements) ↔ WellFormed [statement] ∧ WellFormed statements := by
  simp only [WellFormed, Statement.walkBody, List.append_nil, List.forall_mem_append]

theorem bodyFormed {tokens : List Token} (lexed : Lexed tokens)
    (shorter : ∀ fewer : List Token, fewer.length < tokens.length → Lexed fewer →
      BodyFormed fewer ∧ StatementFormed fewer) : BodyFormed tokens := by
  intro ends ending statements stop rest reads
  rcases reads_body_iff.mp reads with
    ⟨rfl, _, rfl⟩ | ⟨head, tail, first, later, others, rfl, _, readsFirst, readsOthers, rfl⟩
  · exact ⟨nofun, fun token member => lexed token (List.mem_cons_of_mem _ member)⟩
  · have lexedTail : Lexed tail := fun token member => lexed token (List.mem_cons_of_mem _ member)
    obtain ⟨firstFormed, lexedLater⟩ :=
      (shorter tail (Nat.lt_succ_self _) lexedTail).2 _ _ _ _ _ readsFirst
    obtain ⟨othersFormed, lexedRest⟩ :=
      (shorter later (Nat.lt_succ_of_lt readsFirst.shorter) lexedLater).1 _ _ _ _ _ readsOthers
    exact ⟨wellFormed_cons_iff.mpr ⟨firstFormed, othersFormed⟩, lexedRest⟩

theorem blocksFormed {tokens : List Token} (ofBody : BodyFormed tokens)
    (shorter : ∀ fewer : List Token, fewer.length < tokens.length → Lexed fewer → BlocksFormed fewer) :
    BlocksFormed tokens := by
  intro condition ending found place rest formed reads
  obtain ⟨statements, stop, middle, others, readsBody, goesOn, rfl⟩ := reads_blocks_iff.mp reads
  obtain ⟨bodyFormed, lexedMiddle⟩ := ofBody _ _ _ _ _ readsBody
  have together (rest : List (Block Pos))
      (restFormed : ∀ statement ∈ Statement.walkBlocks rest, statement.wellFormed = true) :
      ∀ statement ∈ Statement.walkBlocks (.mk condition statements :: rest), statement.wellFormed = true := by
    rw [Statement.walkBlocks]
    exact List.forall_mem_append.mpr ⟨bodyFormed, restFormed⟩
  cases goesOn with
  | finish _ =>
      refine ⟨⟨List.cons_ne_nil _ _, ?_, nofun⟩, together [] nofun, lexedMiddle⟩
      exact List.forall_mem_singleton.mpr formed
  | otherwise _ tested _ readsOthers =>
      obtain ⟨chained, othersFormed, lexedRest⟩ :=
        shorter middle readsBody.shorter lexedMiddle _ _ _ _ _ rfl readsOthers
      exact ⟨chained.cons formed tested, together others othersFormed, lexedRest⟩
  | next _ tested _ readsCondition readsOthers =>
      obtain ⟨⟨nextFormed, _⟩, lexedLater⟩ := yields_condition _ _ _ _ lexedMiddle readsCondition
      obtain ⟨chained, othersFormed, lexedRest⟩ :=
        shorter _ (Nat.lt_trans readsCondition.shorter readsBody.shorter) lexedLater _ _ _ _ _ nextFormed
          readsOthers
      exact ⟨chained.cons formed tested, together others othersFormed, lexedRest⟩

theorem statementFormed {tokens : List Token} (lexed : Lexed tokens)
    (shorter : ∀ fewer : List Token, fewer.length < tokens.length → Lexed fewer →
      BodyFormed fewer ∧ BlocksFormed fewer) : StatementFormed tokens := by
  intro topLevel head ending result rest reads
  obtain ⟨_, ways⟩ := reads_statement_iff.mp reads
  cases ways with
  | sub _ _ readsName readsBody =>
      obtain ⟨isName, lexedMiddle⟩ := yields_identifier _ _ _ _ lexed readsName
      obtain ⟨inner, lexedRest⟩ := (shorter _ readsName.shorter lexedMiddle).1 _ _ _ _ _ readsBody
      refine ⟨?_, lexedRest⟩
      simp only [WellFormed, Statement.walkBody, Statement.walk, List.append_nil]
      exact List.forall_mem_cons.mpr ⟨isName, inner⟩
  | group _ _ readsGroup =>
      obtain ⟨formed, lexedRest⟩ := yields_groupDeclaration _ _ _ _ lexed readsGroup
      refine ⟨?_, lexedRest⟩
      simpa [WellFormed, Statement.walkBody, Statement.walk, Statement.wellFormed] using formed
  | choice _ readsCondition readsBlocks complete =>
      obtain ⟨⟨formed, _⟩, lexedMiddle⟩ := yields_condition _ _ _ _ lexed readsCondition
      obtain ⟨chained, inner, lexedRest⟩ :=
        (shorter _ readsCondition.shorter lexedMiddle).2 _ _ _ _ _ formed readsBlocks
      refine ⟨?_, lexedRest⟩
      simp only [WellFormed, Statement.walkBody, Statement.walk, List.append_nil]
      exact List.forall_mem_cons.mpr ⟨chained.wellFormedBlocks complete, inner⟩
  | leaf _ _ _ known readsLeaf => exact yields_leaf known _ _ _ _ lexed readsLeaf

/-- Statements and their parts are read from ever shorter tokens, so all of them are covered. -/
theorem formed_of_lexed {tokens : List Token} (lexed : Lexed tokens) :
    BodyFormed tokens ∧ BlocksFormed tokens ∧ StatementFormed tokens := by
  induction size : tokens.length using Nat.strongRecOn generalizing tokens with
  | ind count ih =>
      have shorter (fewer : List Token) (less : fewer.length < tokens.length) (lexedFewer : Lexed fewer) :=
        ih fewer.length (size ▸ less) lexedFewer rfl
      have ofBody := bodyFormed lexed fun fewer less lexedFewer =>
        ⟨(shorter fewer less lexedFewer).1, (shorter fewer less lexedFewer).2.2⟩
      refine ⟨ofBody, ?_, ?_⟩
      · exact blocksFormed ofBody fun fewer less lexedFewer => (shorter fewer less lexedFewer).2.1
      · exact statementFormed lexed fun fewer less lexedFewer =>
          ⟨(shorter fewer less lexedFewer).1, (shorter fewer less lexedFewer).2.1⟩

theorem wellFormed_of_script {ending : Ending} {tokens : List Token} {program : Program}
    (lexed : Lexed tokens) (success : script ending tokens = .ok program) : WellFormed program := by
  induction size : tokens.length using Nat.strongRecOn generalizing tokens program with
  | ind count ih =>
      rcases script_eq_ok_iff.mp success with
        ⟨rfl, rfl, _⟩ | ⟨head, tail, first, later, others, rfl, readsFirst, foundOthers, rfl⟩
      · exact nofun
      · obtain ⟨firstFormed, lexedLater⟩ := (formed_of_lexed fun token member =>
          lexed token (List.mem_cons_of_mem _ member)).2.2 _ _ _ _ _ readsFirst
        have fewer : later.length < count := size ▸ Nat.lt_succ_of_lt readsFirst.shorter
        exact wellFormed_cons_iff.mpr ⟨firstFormed, ih _ fewer lexedLater foundOthers rfl⟩

end Parser

/-- Every parsed script consists of statements that can be written down. -/
theorem wellFormed_of_parse {text : String} {program : Program} (parsed : parse text = .ok program) :
    WellFormed program :=
  Parser.wellFormed_of_script (lexed_of_mem_tokenList _) parsed

end MissionGraph.Script
