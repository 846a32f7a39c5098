import MissionGraph.Proofs.Script.Derivation
import MissionGraph.Proofs.Script.Recognition

/-!
# What the parser accepts

The parser reads a script exactly if its tokens derive one, and it is the derived script that is read. Each
parser of the words and values inside statements accepts the tokens of one form; statements follow by
induction on the number of tokens in one direction and on the derivation in the other.
-/

namespace MissionGraph

open Mission (Comm Difficulty Field Message Objective Offer OfferItem OfferMode Party Plurality)
open Number (Single)

/-- A word stands for the one value that has it up to letter case. -/
theorem Mission.ofWord?_eq_some_iff {α : Type} {word : α → String} {values : List α} {text : String} {value : α}
    (listed : value ∈ values)
    (distinct : ∀ other ∈ values, Text.sameLetters (word other) (word value) = true → other = value) :
    ofWord? word values text = some value ↔ Text.sameLetters (word value) text = true := by
  have letters {other : α} (found : ofWord? word values text = some other) :
      Text.sameLetters (word other) text = true :=
    List.find?_some (p := fun one => Text.sameLetters (word one) text) found
  constructor
  · exact letters
  · intro same
    cases found : ofWord? word values text with
    | none => exact absurd same (List.find?_eq_none.mp found value listed)
    | some other =>
        have otherSame := letters found
        rw [Text.sameLetters_iff] at same otherSame
        rw [distinct other (List.mem_of_find?_eq_some found)
          ((Text.sameLetters_iff _ _).mpr (otherSame.trans same.symm))]

namespace Script.Parser

open MissionGraph.Script.Derivation

variable {α : Type} {ending : Ending} {tokens rest : List Token}

/-! ## Words and numbers -/

theorem isInteger_iff {token : Token} {value : Int32} (lexed : token.lexed = true) :
    IsInteger [token] value ↔ token.kind = .integer ∧ Number.readInt32? token.text.toList = some value := by
  have least (n : Nat) : Int32.minValue.toInt ≤ (n : Int) :=
    Int.le_trans (by decide) (Int.natCast_nonneg n)
  constructor
  · rintro ⟨isInteger, inRange⟩
    refine ⟨isInteger, ?_⟩
    rw [Number.readInt32?, (digits_of_integer isInteger lexed).readInt?]
    exact if_pos ⟨least _, inRange⟩
  · rintro ⟨isInteger, read⟩
    rw [Number.readInt32?, (digits_of_integer isInteger lexed).readInt?, Option.bind_some, Number.ofInt?] at read
    split at read
    · rename_i inRange
      cases read
      exact .mk isInteger inRange.2
    · cases read

/-- The text of a token with a point is digits, the point and digits. -/
theorem exists_fraction {token : Token} (isFloat : token.kind = .float) (lexed : token.lexed = true) :
    ∃ whole fraction, token.text.toList = whole ++ '.' :: fraction ∧ Number.Digits whole ∧
      ∀ c ∈ fraction, Number.isDigit c = true := by
  rw [Token.lexed, isFloat] at lexed
  simp only [Bool.and_eq_true, Bool.not_eq_true', List.isEmpty_eq_false_iff] at lexed
  obtain ⟨nonempty, formed⟩ := lexed
  split at formed
  · rename_i fraction dropped
    simp only [Bool.and_eq_true, List.all_eq_true] at formed
    refine ⟨token.text.toList.takeWhile Number.isDigit, fraction, ?_,
      ⟨nonempty, List.all_eq_true.mp List.all_takeWhile⟩, formed.2⟩
    rw [← dropped, List.takeWhile_append_dropWhile]
  · cases formed

/-- The digits in front of the point and those after it are determined by the text. -/
theorem eq_of_fraction {whole other fraction tail : List Char} (digits : ∀ c ∈ whole, Number.isDigit c = true)
    (others : ∀ c ∈ other, Number.isDigit c = true) (same : whole ++ '.' :: fraction = other ++ '.' :: tail) :
    whole = other ∧ fraction = tail := by
  have point : ¬ Number.isDigit '.' = true := by decide
  have taken := congrArg (List.takeWhile Number.isDigit) same
  rw [List.takeWhile_append_of_pos digits, List.takeWhile_append_of_pos others,
    List.takeWhile_cons_of_neg point, List.takeWhile_cons_of_neg point, List.append_nil, List.append_nil] at taken
  subst taken
  exact ⟨rfl, (List.cons.inj (List.append_cancel_left same)).2⟩

theorem isNumber_iff {token : Token} {value : Single} (lexed : token.lexed = true) :
    IsNumber token value ↔ Fits .float token ∧ Single.read? token.text.toList = some value := by
  constructor
  · intro isNumber
    cases isNumber with
    | whole isInteger =>
        refine ⟨.inr ⟨rfl, isInteger⟩, ?_⟩
        rw [Single.read?, Number.Decimal.read?_digits (digits_of_integer isInteger lexed)]
    | @fraction whole fraction isFloat parts digits =>
        obtain ⟨front, back, sameParts, frontDigits, backDigits⟩ := exists_fraction isFloat lexed
        obtain ⟨rfl, rfl⟩ := eq_of_fraction frontDigits.2 (List.forall_mem_append.mp digits).1
          (sameParts.symm.trans parts)
        refine ⟨.inl isFloat, ?_⟩
        rw [Single.read?, sameParts, Number.Decimal.read?_fraction frontDigits backDigits]
  · rintro ⟨isFloat | ⟨_, isInteger⟩, read⟩
    · obtain ⟨whole, fraction, parts, wholeDigits, fractionDigits⟩ := exists_fraction isFloat lexed
      rw [Single.read?, parts, Number.Decimal.read?_fraction wholeDigits fractionDigits] at read
      cases read
      exact .fraction isFloat parts (List.forall_mem_append.mpr ⟨wholeDigits.2, fractionDigits⟩)
    · rw [Single.read?, Number.Decimal.read?_digits (digits_of_integer isInteger lexed)] at read
      cases read
      exact .whole isInteger

theorem isWord_iff {word : α → String} {values : List α} {token : Token} {value : α} (listed : value ∈ values)
    (distinct : ∀ other ∈ values, Text.sameLetters (word other) (word value) = true → other = value) :
    IsWord .anyCase word token value ↔
      token.kind = .identifier ∧ Mission.ofWord? word values token.text = some value := by
  rw [Mission.ofWord?_eq_some_iff listed distinct]
  constructor
  · rintro ⟨isName, spells⟩
    exact ⟨isName, spells⟩
  · rintro ⟨isName, spells⟩
    exact ⟨isName, spells⟩

/-- No two keywords of one kind differ in the case of letters only. -/
theorem eq_of_sameLetters_word :
    (∀ party ∈ [Party.none, .player, .target, .friendly, .hostile, .base],
        ∀ other ∈ [Party.none, .player, .target, .friendly, .hostile, .base],
          Text.sameLetters other.word party.word = true → other = party) ∧
      (∀ mode ∈ [OfferMode.append, .replace], ∀ other ∈ [OfferMode.append, .replace],
        Text.sameLetters other.word mode.word = true → other = mode) ∧
      ∀ plurality ∈ [Plurality.singular, .plural], ∀ other ∈ [Plurality.singular, .plural],
        Text.sameLetters other.word plurality.word = true → other = plurality := by
  decide +kernel

theorem isParty_iff {token : Token} {party : Party} :
    IsWord .anyCase Party.word token party ↔
      token.kind = .identifier ∧ Party.ofWord? token.text = some party := by
  have listed : party ∈ [Party.none, .player, .target, .friendly, .hostile, .base] := by cases party <;> decide
  exact isWord_iff listed (eq_of_sameLetters_word.1 party listed)

theorem isMode_iff {token : Token} {mode : OfferMode} :
    IsWord .anyCase OfferMode.word token mode ↔
      token.kind = .identifier ∧ OfferMode.ofWord? token.text = some mode := by
  have listed : mode ∈ [OfferMode.append, .replace] := by cases mode <;> decide
  exact isWord_iff listed (eq_of_sameLetters_word.2.1 mode listed)

theorem isMarker_iff {token : Token} {plurality : Plurality} :
    IsWord .anyCase Plurality.word token plurality ∧ plurality ≠ .none ↔ pluralityMarker? token = some plurality := by
  rw [pluralityMarker?, Option.ite_none_right_eq_some]
  have marks (listed : plurality ∈ [Plurality.singular, .plural]) :=
    @isWord_iff _ _ _ token _ listed (eq_of_sameLetters_word.2.2 plurality listed)
  cases plurality with
  | none =>
      refine ⟨fun marked => absurd rfl marked.2, fun marked => ?_⟩
      have listed := List.mem_of_find?_eq_some marked.2
      exact absurd listed (by decide)
  | singular =>
      rw [Plurality.ofMarker?, ← marks (by decide)]
      exact and_iff_left Plurality.noConfusion
  | plural =>
      rw [Plurality.ofMarker?, ← marks (by decide)]
      exact and_iff_left Plurality.noConfusion

theorem reads_integer_form {value : Int32} (lexed : Lexed tokens) :
    Reads integer ending tokens value rest ↔ ∃ token, tokens = token :: rest ∧ IsInteger [token] value := by
  rw [reads_integer_iff]
  constructor
  · rintro ⟨token, rfl, read⟩
    exact ⟨token, rfl, (isInteger_iff (lexed token List.mem_cons_self)).mpr read⟩
  · rintro ⟨token, rfl, isInteger⟩
    exact ⟨token, rfl, (isInteger_iff (lexed token List.mem_cons_self)).mp isInteger⟩

/-- The names that do not mark a plurality. -/
theorem isArgument_iff {name : String} :
    IsArgument .anyCase tokens name ↔
      ∃ token, tokens = [token] ∧ token.kind = .identifier ∧ (Plurality.ofMarker? token.text).isNone = true ∧
        name = token.text := by
  have unmarked (text : String) : (Plurality.ofMarker? text).isNone = true ↔
      ¬ Text.sameLetters Plurality.singular.word text = true ∧
        ¬ Text.sameLetters Plurality.plural.word text = true := by
    rw [Option.isNone_iff_eq_none, Plurality.ofMarker?, Mission.ofWord?, List.find?_eq_none]
    simp
  constructor
  · rintro ⟨⟨isName⟩, notMarker⟩
    exact ⟨_, rfl, isName, (unmarked _).mpr notMarker, rfl⟩
  · rintro ⟨token, rfl, isName, notMarker, rfl⟩
    exact ⟨.mk isName, (unmarked _).mp notMarker⟩

/-! ## Lists -/

/-- In front of such a rest, the parser reads exactly the values of the form. -/
def Accepts (before : List Token → Prop) (parser : Parser α) (form : List Token → α → Prop) : Prop :=
  ∀ ending tokens value rest, Lexed tokens →
    (Reads parser ending tokens value rest ↔ ∃ front, tokens = front ++ rest ∧ form front value ∧ before rest)

theorem lexed_of_append (front : List Token) (lexed : Lexed (front ++ rest)) : Lexed rest :=
  (List.forall_mem_append.mp lexed).2

theorem accepts_identifier : Accepts Anything identifier IsName := by
  intro ending tokens name rest _
  rw [reads_identifier_iff]
  constructor
  · rintro ⟨token, rfl, isName, rfl⟩
    exact ⟨[token], rfl, .mk isName, trivial⟩
  · rintro ⟨_, rfl, ⟨isName⟩, _⟩
    exact ⟨_, rfl, isName, rfl⟩

theorem accepts_separated {item : Parser α} {form : List Token → α → Prop} (accepts : Accepts Anything item form) :
    Accepts EndsList (separated .comma item) (Several form) := by
  intro ending tokens
  induction size : tokens.length using Nat.strongRecOn generalizing tokens with
  | ind count ih =>
      intro values rest lexed
      rw [reads_separated_iff]
      constructor
      · rintro (⟨value, reads, ends, rfl⟩ | ⟨value, comma, tail, others, reads, isComma, readsLater, rfl⟩)
        · obtain ⟨front, rfl, isMember, _⟩ := (accepts _ _ _ _ lexed).mp reads
          exact ⟨front ++ [], by rw [List.append_nil], .mk isMember .nil, ends⟩
        · obtain ⟨front, rfl, isMember, _⟩ := (accepts _ _ _ _ lexed).mp reads
          have lexedTail : Lexed tail := lexed_of_append [comma] (lexed_of_append _ lexed)
          have fewer : tail.length < count :=
            size ▸ Nat.lt_trans (Nat.lt_succ_self _) reads.shorter
          obtain ⟨_, rfl, ⟨isNext, more⟩, ends⟩ := (ih _ fewer tail rfl _ _ lexedTail).mp readsLater
          exact ⟨_, by simp, .mk isMember (.cons isComma isNext more), ends⟩
      · rintro ⟨_, rfl, ⟨isMember, later⟩, ends⟩
        cases later with
        | nil =>
            rw [List.append_nil] at lexed ⊢
            exact .inl ⟨_, (accepts _ _ _ _ lexed).mpr ⟨_, rfl, isMember, trivial⟩, ends, rfl⟩
        | @cons comma next more value others isComma isNext more =>
            rw [List.append_assoc] at lexed size ⊢
            have reads := (accepts ending _ _ _ lexed).mpr ⟨_, rfl, isMember, trivial⟩
            have lexedTail := lexed_of_append [comma] (lexed_of_append _ lexed)
            have fewer := size ▸ Nat.lt_trans (Nat.lt_succ_self _) reads.shorter
            exact .inr ⟨_, comma, _, _, reads, isComma,
              (ih _ fewer _ rfl _ _ lexedTail).mpr ⟨_, rfl, .mk isNext more, ends⟩, rfl⟩

theorem accepts_message : Accepts EndsList message (IsMessage IsName) := by
  intro ending tokens value rest lexed
  rw [message, reads_map_iff]
  constructor
  · rintro ⟨_, reads, rfl⟩
    rcases reads_andMaybe_iff.mp reads with
      ⟨id, readsId, ends, rfl⟩ | ⟨id, comma, tail, args, readsId, isComma, readsArgs, rfl⟩
    · obtain ⟨number, rfl, isId⟩ := (reads_integer_form lexed).mp readsId
      exact ⟨[number], rfl, .mk isId .nil, ends⟩
    · obtain ⟨number, rfl, isId⟩ := (reads_integer_form lexed).mp readsId
      have lexedTail : Lexed tail := lexed_of_append [number, comma] lexed
      obtain ⟨_, rfl, ⟨isName, more⟩, ends⟩ := (accepts_separated accepts_identifier _ _ _ _ lexedTail).mp readsArgs
      exact ⟨_, rfl, .mk isId (.cons isComma isName more), ends⟩
  · rintro ⟨_, rfl, ⟨isId, areArgs⟩, ends⟩
    have readsId : Reads integer ending _ _ _ := (reads_integer_form lexed).mpr ⟨_, rfl, isId⟩
    cases areArgs with
    | nil => exact ⟨(_, none), reads_andMaybe_iff.mpr (.inl ⟨_, readsId, ends, rfl⟩), rfl⟩
    | @cons comma next more _ _ isComma isName more =>
        have lexedTail := lexed_of_append [_, comma] lexed
        have readsArgs := (accepts_separated accepts_identifier ending _ _ _ lexedTail).mpr
          ⟨_, rfl, .mk isName more, ends⟩
        exact ⟨(_, some _), reads_andMaybe_iff.mpr (.inr ⟨_, comma, _, _, readsId, isComma, readsArgs, rfl⟩), rfl⟩

/-! ## Offers -/

/-- The tokens go on with what cannot belong to the offer item in front of them. -/
def StopsItem (tokens : List Token) : Prop :=
  ∃ token tail, tokens = token :: tail ∧ token.kind ≠ .comma ∧
    ¬ (token.kind = .identifier ∧ (Plurality.ofMarker? token.text).isNone = true)

theorem stopsItem_of_rightParen (next : NextIs .rightParen tokens) : StopsItem tokens := by
  obtain ⟨token, tail, rfl, isParen⟩ := nextIs_iff.mp next
  exact ⟨token, tail, rfl, by simp [isParen], by simp [isParen]⟩

/-- The names after the number of an offer item, and the comma that may follow them. -/
theorem itemArgs_form (tokens : List Token) :
    ∃ front mark, tokens = front ++ mark ++ (itemArgs tokens).2 ∧
      More (IsArgument .anyCase) front (itemArgs tokens).1 ∧ MaybeComma mark := by
  fun_induction itemArgs tokens with
  | case1 comma name rest isComma isArg args tail found ih =>
      rw [found] at ih
      obtain ⟨front, mark, parts, areArgs, isMark⟩ := ih
      have isArgument := isArgument_iff.mpr ⟨name, rfl, isArg.1, isArg.2, rfl⟩
      exact ⟨comma :: ([name] ++ front), mark, by simp [parts], .cons isComma isArgument areArgs, isMark⟩
  | case2 comma name rest isComma _ => exact ⟨[], [comma], rfl, .nil, .present isComma⟩
  | case3 => exact ⟨[], [], rfl, .nil, .absent⟩
  | case4 last isComma => exact ⟨[], [last], rfl, .nil, .present isComma⟩
  | case5 => exact ⟨[], [], rfl, .nil, .absent⟩
  | case6 => exact ⟨[], [], rfl, .nil, .absent⟩

theorem itemArgs_of_form {front mark : List Token} {args : List String}
    (areArgs : More (IsArgument .anyCase) front args) (isMark : MaybeComma mark) (stops : StopsItem rest) :
    itemArgs (front ++ mark ++ rest) = (args, rest) := by
  induction areArgs with
  | nil =>
      obtain ⟨token, tail, rfl, notComma, notArg⟩ := stops
      cases isMark with
      | absent => exact itemArgs_endsList fun isComma => notComma (Option.some.inj isComma)
      | present isComma => rw [List.nil_append, List.singleton_append, itemArgs, if_pos isComma, if_neg notArg]
  | cons isComma isArgument _ ih =>
      obtain ⟨name, rfl, isName, notMarker, rfl⟩ := isArgument_iff.mp isArgument
      simp only [List.cons_append, List.nil_append, itemArgs, if_pos isComma, if_pos (And.intro isName notMarker), ih]

theorem reads_itemMessage_form {message : Message} (lexed : Lexed tokens)
    (reads : Reads itemMessage ending tokens message rest) :
    ∃ front mark, tokens = front ++ mark ++ rest ∧ IsMessage (IsArgument .anyCase) front message ∧
      MaybeComma mark := by
  obtain ⟨id, middle, readsId, rfl, rfl⟩ := reads_itemMessage_iff.mp reads
  obtain ⟨number, rfl, isId⟩ := (reads_integer_form lexed).mp readsId
  obtain ⟨front, mark, parts, areArgs, isMark⟩ := itemArgs_form middle
  exact ⟨number :: front, mark, congrArg (number :: ·) parts, .mk isId areArgs, isMark⟩

theorem reads_itemMessage_of_form {front mark : List Token} {message : Message}
    (isMessage : IsMessage (IsArgument .anyCase) front message) (isMark : MaybeComma mark)
    (stops : StopsItem rest) (lexed : Lexed (front ++ mark ++ rest)) :
    Reads itemMessage ending (front ++ mark ++ rest) message rest := by
  obtain @⟨number, tail, id, args, isId, areArgs⟩ := isMessage
  have readsId : Reads integer ending _ id (tail ++ mark ++ rest) :=
    (reads_integer_form lexed).mpr ⟨number, rfl, isId⟩
  have taken := itemArgs_of_form areArgs isMark stops
  exact reads_itemMessage_iff.mpr ⟨id, _, readsId, by rw [taken], by rw [taken]⟩

theorem reads_offerItem_form {item : OfferItem} (lexed : Lexed tokens)
    (reads : Reads offerItem ending tokens item rest) :
    ∃ front mark, tokens = front ++ mark ++ rest ∧ IsItem .anyCase front item ∧ MaybeComma mark := by
  rcases reads_byFirst_iff.mp reads with ⟨marker, tail, plurality, rfl, picked, readsMarked⟩ | ⟨_, readsPlain⟩
  · obtain ⟨message, readsMessage, rfl⟩ := reads_map_iff.mp readsMarked
    obtain ⟨comma, later, rfl, isComma | ⟨impossible, _⟩, readsLater⟩ := reads_afterMark_iff.mp readsMessage
    · obtain ⟨front, mark, rfl, isMessage, isMark⟩ :=
        reads_itemMessage_form (lexed_of_append [marker, comma] lexed) readsLater
      obtain ⟨isMarker, isMarked⟩ := isMarker_iff.mpr picked
      exact ⟨marker :: comma :: front, mark, rfl, .marked isMarker isMarked isComma isMessage, isMark⟩
    · cases impossible
  · obtain ⟨message, readsMessage, rfl⟩ := reads_map_iff.mp readsPlain
    obtain ⟨front, mark, rfl, isMessage, isMark⟩ := reads_itemMessage_form lexed readsMessage
    exact ⟨front, mark, rfl, .plain isMessage, isMark⟩

theorem reads_offerItem_of_form {front mark : List Token} {item : OfferItem} (isItem : IsItem .anyCase front item)
    (isMark : MaybeComma mark) (stops : StopsItem rest) (lexed : Lexed (front ++ mark ++ rest)) :
    Reads offerItem ending (front ++ mark ++ rest) item rest := by
  cases isItem with
  | plain isMessage =>
      have reads : Reads itemMessage ending _ _ _ := reads_itemMessage_of_form isMessage isMark stops lexed
      refine reads_byFirst_iff.mpr (.inr ⟨fun first isFirst => ?_, reads_map_iff.mpr ⟨_, reads, rfl⟩⟩)
      obtain ⟨⟨isInteger, _⟩, _⟩ := isMessage
      cases isFirst
      rw [pluralityMarker?, isInteger]
      rfl
  | marked isMarker isMarked isComma isMessage =>
      have reads : Reads itemMessage ending _ _ _ :=
        reads_itemMessage_of_form isMessage isMark stops (lexed_of_append [_, _] lexed)
      exact reads_byFirst_iff.mpr (.inl ⟨_, _, _, rfl, isMarker_iff.mp ⟨isMarker, isMarked⟩,
        reads_map_iff.mpr ⟨_, reads_afterMark_iff.mpr ⟨_, _, rfl, .inl isComma, reads⟩, rfl⟩⟩)

/-- Offer items start with a number or a plurality, never with a closing parenthesis. -/
theorem stopsItem_of_areItems {front : List Token} {items : List OfferItem}
    (areItems : AreItems .anyCase front items) (rest : List Token) :
    StopsItem (front ++ rest) ∧ ¬ NextIs .rightParen (front ++ rest) := by
  have ofItem {tokens after : List Token} {item : OfferItem} (isItem : IsItem .anyCase tokens item) :
      StopsItem (tokens ++ after) ∧ ¬ NextIs .rightParen (tokens ++ after) := by
    cases isItem with
    | plain isMessage =>
        obtain ⟨⟨isInteger, _⟩, _⟩ := isMessage
        exact ⟨⟨_, _, rfl, by simp [isInteger], by simp [isInteger]⟩, by simp [NextIs, isInteger]⟩
    | @marked marker _ _ plurality _ isMarker isMarked _ _ =>
        have picked := isMarker_iff.mp ⟨isMarker, isMarked⟩
        rw [pluralityMarker?, if_pos isMarker.1] at picked
        exact ⟨⟨_, _, rfl, by simp [isMarker.1], by simp [picked]⟩, by simp [NextIs, isMarker.1]⟩
  cases areItems with
  | last isItem _ =>
      rw [List.append_assoc]
      exact ofItem isItem
  | next isItem _ _ =>
      rw [List.append_assoc, List.append_assoc]
      exact ofItem isItem

theorem accepts_items : Accepts (NextIs .rightParen) (upTo .rightParen offerItem) (AreItems .anyCase) := by
  intro ending tokens items rest lexed
  constructor
  · intro reads
    induction size : tokens.length using Nat.strongRecOn generalizing tokens items with
    | ind count ih =>
        rcases reads_upTo_iff.mp reads with
          ⟨item, readsItem, isNext, rfl⟩ | ⟨item, middle, others, readsItem, _, readsLater, rfl⟩
        · obtain ⟨front, mark, rfl, isItem, isMark⟩ := reads_offerItem_form lexed readsItem
          exact ⟨_, rfl, .last isItem isMark, isNext⟩
        · have fewer := size ▸ readsItem.shorter
          obtain ⟨front, mark, rfl, isItem, isMark⟩ := reads_offerItem_form lexed readsItem
          obtain ⟨later, rfl, areItems, isNext⟩ := ih _ fewer _ others (lexed_of_append _ lexed) readsLater rfl
          exact ⟨_, (List.append_assoc _ _ _).symm, .next isItem isMark areItems, isNext⟩
  · rintro ⟨front, rfl, areItems, isNext⟩
    induction areItems with
    | last isItem isMark =>
        exact reads_upTo_iff.mpr (.inl ⟨_, reads_offerItem_of_form isItem isMark (stopsItem_of_rightParen isNext)
          lexed, isNext, rfl⟩)
    | next isItem isMark areItems ih =>
        rw [List.append_assoc] at lexed ⊢
        obtain ⟨stops, notNext⟩ := stopsItem_of_areItems areItems rest
        exact reads_upTo_iff.mpr (.inr ⟨_, _, _, reads_offerItem_of_form isItem isMark stops lexed, notNext,
          ih (lexed_of_append _ lexed), rfl⟩)

theorem accepts_offer : Accepts Anything offer (IsOffer .anyCase) := by
  intro ending tokens value rest lexed
  rw [offer, reads_bind_iff]
  constructor
  · rintro ⟨mode, middle, readsMode, reads⟩
    obtain ⟨word, rfl, isName, known⟩ := reads_word_iff.mp readsMode
    obtain ⟨items, readsItems, rfl⟩ := reads_map_iff.mp reads
    obtain ⟨left, tail, rfl, isLeft | ⟨impossible, _⟩, readsTail⟩ := reads_afterMark_iff.mp readsItems
    · obtain ⟨right, isRight | ⟨impossible, _⟩, readsInner⟩ := reads_beforeMark_iff.mp readsTail
      · have lexedTail : Lexed tail := lexed_of_append [word, left] lexed
        obtain ⟨front, rfl, areItems, _⟩ := (accepts_items _ _ _ _ lexedTail).mp readsInner
        exact ⟨word :: left :: (front ++ [right]), by simp, .mk (isMode_iff.mpr ⟨isName, known⟩) isLeft areItems isRight,
          trivial⟩
      · cases impossible
    · cases impossible
  · rintro ⟨_, rfl, @⟨word, left, right, front, mode, items, isMode, isLeft, areItems, isRight⟩, _⟩
    have lexedTail : Lexed (front ++ right :: rest) := lexed_of_append [word, left] (by simpa using lexed)
    have readsItems := (accepts_items ending _ _ _ lexedTail).mpr
      ⟨front, rfl, areItems, congrArg some isRight⟩
    refine ⟨mode, left :: (front ++ right :: rest), reads_word_iff.mpr ⟨word, by simp, isMode_iff.mp isMode⟩, ?_⟩
    exact reads_map_iff.mpr ⟨items, reads_afterMark_iff.mpr ⟨left, _, rfl, .inl isLeft,
      reads_beforeMark_iff.mpr ⟨right, .inl isRight, readsItems⟩⟩, rfl⟩

/-! ## Fields -/

theorem accepts_names : Accepts EndsList names (Several IsName) :=
  accepts_separated accepts_identifier

theorem Accepts.form {before : List Token → Prop} {parser : Parser α} {form : List Token → α → Prop} {value : α}
    (accepts : Accepts before parser form) (lexed : Lexed tokens) (reads : Reads parser ending tokens value rest) :
    ∃ front, tokens = front ++ rest ∧ form front value := by
  obtain ⟨front, parts, isForm, _⟩ := (accepts _ _ _ _ lexed).mp reads
  exact ⟨front, parts, isForm⟩

theorem fits_iff {kind : TokenKind} {token : Token} (other : kind ≠ .float) : Fits kind token ↔ token.kind = kind :=
  or_iff_left fun impossible => other impossible.1

theorem accepts_offers : Accepts Anything offers (AreOffers .anyCase) := by
  intro ending tokens entries rest lexed
  simp only [offers, reads_afterMark_iff, reads_beforeMark_iff, fits_iff (show TokenKind.leftParen ≠ .float by decide),
    fits_iff (show TokenKind.rightParen ≠ .float by decide)]
  constructor
  · rintro ⟨left, tail, rfl, isLeft, right, isRight, reads⟩
    have lexedTail : Lexed tail := lexed_of_append [left] lexed
    obtain ⟨front, rfl, areOffers⟩ := (accepts_separated accepts_offer).form lexedTail reads
    exact ⟨left :: (front ++ [right]), by simp, .mk isLeft areOffers isRight, trivial⟩
  · rintro ⟨_, rfl, @⟨left, right, front, _, isLeft, areOffers, isRight⟩, _⟩
    have lexedTail : Lexed (front ++ right :: rest) := lexed_of_append [left] (by simpa using lexed)
    refine ⟨left, front ++ right :: rest, by simp, isLeft, right, isRight, ?_⟩
    exact (accepts_separated accepts_offer _ _ _ _ lexedTail).mpr
      ⟨front, rfl, areOffers, endsList_of_nextIs (by decide) (congrArg some isRight)⟩

theorem accepts_integer : Accepts Anything integer IsInteger := by
  intro ending tokens value rest lexed
  rw [reads_integer_form lexed]
  constructor
  · rintro ⟨token, rfl, isInteger⟩
    exact ⟨[token], rfl, isInteger, trivial⟩
  · rintro ⟨_, rfl, ⟨isInteger, inRange⟩, _⟩
    exact ⟨_, rfl, .mk isInteger inRange⟩

theorem accepts_comm : Accepts Anything comm IsComm := by
  have comma {token : Token} := @fits_iff .comma token (by decide)
  intro ending tokens value rest lexed
  simp only [comm, reads_bind_iff, reads_map_iff, reads_afterMark_iff, reads_identifier_iff, reads_word_iff,
    reads_number_iff, comma, ← isParty_iff]
  constructor
  · rintro ⟨_, _, ⟨event, rfl, isEvent, rfl⟩, _, _, ⟨c₁, _, rfl, isC₁, hearer, rfl, isHearer⟩,
      _, _, ⟨c₂, _, rfl, isC₂, first, rfl, isFirst⟩, _, _, ⟨c₃, _, rfl, isC₃, second, rfl, isSecond⟩,
      _, _, ⟨c₄, _, rfl, isC₄, third, rfl, isThird⟩, _, _, ⟨c₅, _, rfl, isC₅, speaker, rfl, isSpeaker⟩,
      _, ⟨c₆, _, rfl, isC₆, said, rfl, isSaid, rfl⟩, rfl⟩
    refine ⟨[event, c₁, hearer, c₂, first, c₃, second, c₄, third, c₅, speaker, c₆, said], rfl, ?_, trivial⟩
    refine .mk isEvent isHearer ((isNumber_iff (lexed _ ?_)).mpr isFirst) ((isNumber_iff (lexed _ ?_)).mpr isSecond)
      ((isNumber_iff (lexed _ ?_)).mpr isThird) isSpeaker isSaid ?_
    all_goals simp [isC₁, isC₂, isC₃, isC₄, isC₅, isC₆]
  · rintro ⟨_, rfl, ⟨isEvent, isHearer, isFirst, isSecond, isThird, isSpeaker, isSaid, areCommas⟩, _⟩
    simp only [List.forall_mem_cons] at areCommas
    obtain ⟨isC₁, isC₂, isC₃, isC₄, isC₅, isC₆, _⟩ := areCommas
    refine ⟨_, _, ⟨_, rfl, isEvent, rfl⟩, _, _, ⟨_, _, rfl, isC₁, _, rfl, isHearer⟩,
      _, _, ⟨_, _, rfl, isC₂, _, rfl, (isNumber_iff (lexed _ ?_)).mp isFirst⟩,
      _, _, ⟨_, _, rfl, isC₃, _, rfl, (isNumber_iff (lexed _ ?_)).mp isSecond⟩,
      _, _, ⟨_, _, rfl, isC₄, _, rfl, (isNumber_iff (lexed _ ?_)).mp isThird⟩,
      _, _, ⟨_, _, rfl, isC₅, _, rfl, isSpeaker⟩, _, ⟨_, _, rfl, isC₆, _, rfl, isSaid, rfl⟩, rfl⟩
    all_goals simp

theorem accepts_objective : Accepts EndsList objective IsObjective := by
  have comma {token : Token} := @fits_iff .comma token (by decide)
  intro ending tokens value rest lexed
  simp only [objective, reads_bind_iff, reads_map_iff, reads_afterMark_iff, reads_identifier_iff, comma]
  constructor
  · rintro ⟨_, _, ⟨target, rfl, isTarget, rfl⟩, message, ⟨mark, tail, rfl, isMark, reads⟩, rfl⟩
    obtain ⟨front, rfl, isMessage, ends⟩ := (accepts_message _ _ _ _ (lexed_of_append [target, mark] lexed)).mp reads
    exact ⟨target :: mark :: front, rfl, .mk isTarget isMark isMessage, ends⟩
  · rintro ⟨_, rfl, ⟨isTarget, isMark, isMessage⟩, ends⟩
    have reads := (accepts_message ending _ _ _ (lexed_of_append [_, _] lexed)).mpr ⟨_, rfl, isMessage, ends⟩
    exact ⟨_, _, ⟨_, rfl, isTarget, rfl⟩, _, ⟨_, _, rfl, isMark, reads⟩, rfl⟩

theorem accepts_difficulty : Accepts Anything difficulty IsDifficulty := by
  have comma {token : Token} := @fits_iff .comma token (by decide)
  intro ending tokens value rest lexed
  simp only [difficulty, reads_bind_iff, reads_map_iff, reads_afterMark_iff, reads_number_iff, comma]
  constructor
  · rintro ⟨_, _, ⟨first, rfl, isFirst⟩, _, ⟨mark, _, rfl, isMark, second, rfl, isSecond⟩, rfl⟩
    refine ⟨[first, mark, second], rfl, ?_, trivial⟩
    refine .mk ((isNumber_iff (lexed _ ?_)).mpr isFirst) isMark ((isNumber_iff (lexed _ ?_)).mpr isSecond)
    all_goals simp
  · rintro ⟨_, rfl, ⟨isFirst, isMark, isSecond⟩, _⟩
    refine ⟨_, _, ⟨_, rfl, (isNumber_iff (lexed _ ?_)).mp isFirst⟩, _,
      ⟨_, _, rfl, isMark, _, rfl, (isNumber_iff (lexed _ ?_)).mp isSecond⟩, rfl⟩
    all_goals simp

/-- What a field parser reads after its keyword is the value of a field. -/
theorem isField_of_reads {keyword : String} {parser : Parser Field} {value : Field}
    (known : field? keyword = some parser) (lexed : Lexed tokens) (reads : Reads parser ending tokens value rest) :
    ∃ front, tokens = front ++ rest ∧ IsField .anyCase keyword front value := by
  unfold field? at known
  split at known <;> cases known <;> obtain ⟨inner, readsInner, rfl⟩ := reads_map_iff.mp reads
  · obtain ⟨front, rfl, isComm⟩ := accepts_comm.form lexed readsInner
    exact ⟨front, rfl, .comm isComm⟩
  · obtain ⟨front, rfl, isMessage⟩ := accepts_message.form lexed readsInner
    exact ⟨front, rfl, .failure isMessage⟩
  · obtain ⟨front, rfl, isMessage⟩ := accepts_message.form lexed readsInner
    exact ⟨front, rfl, .reward isMessage⟩
  · obtain ⟨front, rfl, isObjective⟩ := accepts_objective.form lexed readsInner
    exact ⟨front, rfl, .objective isObjective⟩
  · obtain ⟨front, rfl, areOffers⟩ := accepts_offers.form lexed readsInner
    exact ⟨front, rfl, .offers areOffers⟩
  · obtain ⟨front, rfl, isDifficulty⟩ := accepts_difficulty.form lexed readsInner
    exact ⟨front, rfl, .difficulty isDifficulty⟩
  · obtain ⟨front, rfl, isInteger⟩ := accepts_integer.form lexed readsInner
    exact ⟨front, rfl, .weight isInteger⟩
  · obtain ⟨front, rfl, areNames⟩ := accepts_names.form lexed readsInner
    exact ⟨front, rfl, .zones areNames⟩
  · obtain ⟨front, rfl, isName⟩ := accepts_identifier.form lexed readsInner
    exact ⟨front, rfl, .offerGroup isName⟩
  · obtain ⟨front, rfl, isName⟩ := accepts_identifier.form lexed readsInner
    exact ⟨front, rfl, .hostileGroup isName⟩

/-- The value of a field is read after its keyword, if the list in it cannot go on. -/
theorem reads_of_isField {keyword : String} {front : List Token} {value : Field}
    (isField : IsField .anyCase keyword front value) :
    ∃ parser, field? keyword = some parser ∧ ∀ ending rest, Lexed (front ++ rest) → EndsList rest →
      Reads parser ending (front ++ rest) value rest := by
  have map {β : Type} {before : List Token → Prop} {parser : Parser β} {form : List Token → β → Prop}
      {inner : β} {f : β → Field} (accepts : Accepts before parser form) (isForm : form front inner)
      (implies : ∀ rest, EndsList rest → before rest) (ending : Ending) (rest : List Token)
      (lexed : Lexed (front ++ rest)) (ends : EndsList rest) :
      Reads (parser.map f) ending (front ++ rest) (f inner) rest :=
    reads_map_iff.mpr ⟨inner, (accepts _ _ _ _ lexed).mpr ⟨front, rfl, isForm, implies rest ends⟩, rfl⟩
  have always (rest : List Token) (_ : EndsList rest) : Anything rest := trivial
  have listed (rest : List Token) (ends : EndsList rest) : EndsList rest := ends
  cases isField with
  | comm isComm => exact ⟨_, rfl, map accepts_comm isComm always⟩
  | failure isMessage => exact ⟨_, rfl, map accepts_message isMessage listed⟩
  | reward isMessage => exact ⟨_, rfl, map accepts_message isMessage listed⟩
  | objective isObjective => exact ⟨_, rfl, map accepts_objective isObjective listed⟩
  | offers areOffers => exact ⟨_, rfl, map accepts_offers areOffers always⟩
  | difficulty isDifficulty => exact ⟨_, rfl, map accepts_difficulty isDifficulty always⟩
  | weight isInteger => exact ⟨_, rfl, map accepts_integer isInteger always⟩
  | zones areNames => exact ⟨_, rfl, map accepts_names areNames listed⟩
  | offerGroup isName => exact ⟨_, rfl, map accepts_identifier isName always⟩
  | hostileGroup isName => exact ⟨_, rfl, map accepts_identifier isName always⟩

/-! ## Statements -/

theorem isWord_eq_true_iff {token : Token} {word : String} :
    token.isWord word = true ↔ token.kind = .identifier ∧ token.text = word := by
  rw [Token.isWord, Bool.and_eq_true, beq_iff_eq, beq_iff_eq]

theorem accepts_condition : Accepts Anything Parser.condition IsCondition := by
  have left {token : Token} := @fits_iff .leftParen token (by decide)
  have right {token : Token} := @fits_iff .rightParen token (by decide)
  intro ending tokens value rest lexed
  simp only [Parser.condition, reads_byFirst_iff, reads_map_iff, reads_afterMark_iff, reads_beforeMark_iff,
    reads_identifier_iff, left, right, Option.ite_none_right_eq_some, ite_eq_right_iff]
  constructor
  · rintro (⟨word, _, _, rfl, ⟨isWord, _⟩, _, ⟨left, _, rfl, isLeft, right, isRight, name, rfl, isName, rfl⟩, rfl⟩ |
      ⟨notWord, _, ⟨name, rfl, isName, rfl⟩, rfl⟩)
    · exact ⟨[word, left, name, right], rfl, .group isWord isLeft isName isRight, trivial⟩
    · refine ⟨[name], rfl, .named isName fun isGroup => ?_, trivial⟩
      cases notWord name rfl (isWord_eq_true_iff.mpr ⟨isName, isGroup⟩)
  · rintro ⟨_, rfl, isCondition, _⟩
    cases isCondition with
    | group isWord isLeft isName isRight =>
        exact .inl ⟨_, _, (), rfl, ⟨isWord, trivial⟩, _, ⟨_, _, rfl, isLeft, _, isRight, _, rfl, isName, rfl⟩, rfl⟩
    | named isName notGroup =>
        refine .inr ⟨fun first isFirst isWord => ?_, _, ⟨_, rfl, isName, rfl⟩, rfl⟩
        cases isFirst
        exact absurd (isWord_eq_true_iff.mp isWord).2 notGroup

/-- What is read after the keyword of a statement without others in it is derived together with the keyword. -/
theorem derives_of_leaf {head : Token} {parser : Parser (Statement Pos)} {result : Statement Pos}
    (isName : head.kind = .identifier) (known : leaf? head.pos head.text = some parser) (lexed : Lexed tokens)
    (reads : Reads parser ending tokens result rest) :
    ∃ front, tokens = front ++ rest ∧ Derives .anyCase (head :: front) (.statement result) := by
  have stop {token : Token} := @fits_iff .semicolon token (by decide)
  unfold leaf? at known
  split at known
  · rename_i isCall
    cases known
    simp only [reads_beforeMark_iff, reads_map_iff, reads_identifier_iff, stop] at reads
    obtain ⟨stop, isStop, _, ⟨name, rfl, isName', rfl⟩, rfl⟩ := reads
    exact ⟨[name, stop], rfl, .call (isWord_eq_true_iff.mpr ⟨isName, isCall⟩) isName' isStop⟩
  · rename_i isUnimplemented
    cases known
    simp only [reads_map_iff, reads_token_iff, stop] at reads
    obtain ⟨stop, ⟨rfl, isStop⟩, rfl⟩ := reads
    exact ⟨[stop], rfl, .unimplemented (isWord_eq_true_iff.mpr ⟨isName, isUnimplemented⟩) isStop⟩
  · rename_i isDoc
    cases known
    simp only [reads_beforeMark_iff, reads_map_iff, reads_identifier_iff, stop] at reads
    obtain ⟨stop, isStop, _, ⟨name, rfl, isName', rfl⟩, rfl⟩ := reads
    exact ⟨[name, stop], rfl, .doc (isWord_eq_true_iff.mpr ⟨isName, isDoc⟩) isName' isStop⟩
  · obtain ⟨fieldParser, isField, rfl⟩ := Option.map_eq_some_iff.mp known
    simp only [reads_beforeMark_iff, reads_map_iff, stop] at reads
    obtain ⟨stop, isStop, value, readsValue, rfl⟩ := reads
    obtain ⟨front, rfl, isValue⟩ := isField_of_reads isField lexed readsValue
    exact ⟨front ++ [stop], by simp, .field (isWord_eq_true_iff.mpr ⟨isName, rfl⟩) isValue isStop⟩

theorem reads_groupDeclaration_form {group : Group} (lexed : Lexed tokens) :
    Reads groupDeclaration ending tokens group rest ↔
      ∃ name front stop, tokens = name :: (front ++ stop :: rest) ∧ name.kind = .identifier ∧
        name.text = group.name ∧ Several IsName front group.factions ∧ stop.kind = .semicolon := by
  have stop {token : Token} := @fits_iff .semicolon token (by decide)
  simp only [groupDeclaration, reads_bind_iff, reads_map_iff, reads_beforeMark_iff, reads_identifier_iff, stop]
  constructor
  · rintro ⟨_, _, ⟨name, rfl, isName, rfl⟩, factions, ⟨stop, isStop, reads⟩, rfl⟩
    obtain ⟨front, rfl, areNames⟩ := accepts_names.form (lexed_of_append [name] lexed) reads
    exact ⟨name, front, stop, rfl, isName, rfl, areNames, isStop⟩
  · rintro ⟨name, front, stop, rfl, isName, sameName, areNames, isStop⟩
    have reads := (accepts_names ending _ _ _ (lexed_of_append [name] lexed)).mpr
      ⟨front, rfl, areNames, endsList_of_nextIs (by decide) (congrArg some isStop)⟩
    exact ⟨group.name, _, ⟨name, rfl, isName, sameName⟩, group.factions, ⟨stop, isStop, reads⟩, rfl⟩

theorem complete_iff_closed {blocks : List (Block Pos)} (nonempty : blocks ≠ []) :
    Complete blocks ↔ Closed blocks := by
  obtain ⟨earlier, last, rfl⟩ := (List.eq_nil_or_concat blocks).resolve_left nonempty
  have unnamed : (∀ name, last.condition ≠ .named name) ↔
      last.condition = .otherwise ∨ ∃ name, last.condition = .group name := by
    cases last.condition <;> simp
  have complete : Complete (earlier ++ [last]) ↔
      earlier ≠ [] ∧ (last.condition = .otherwise ∨ ∃ name, last.condition = .group name) := by
    rw [← unnamed]
    simp [Complete]
  rw [List.concat_eq_append, complete]
  constructor
  · rintro ⟨several, closing⟩
    exact ⟨earlier, last, rfl, several, closing⟩
  · rintro ⟨front, final, same, several, closing⟩
    obtain ⟨rfl, ⟨⟩⟩ := List.append_inj' same rfl
    exact ⟨several, closing⟩

/-- What is read from these tokens is derived by those that are used up. -/
structure Sound (tokens : List Token) : Prop where
  body : ∀ ends ending statements stop rest, Reads (body ends) ending tokens (statements, stop) rest →
    ∃ front, tokens = front ++ stop :: rest ∧ ends stop = true ∧ Derives .anyCase front (.body statements)
  blocks : ∀ test condition ending found place rest, IsCondition test condition →
    Reads (blocks condition) ending tokens (found, place) rest →
    ∃ front stop, tokens = front ++ stop :: rest ∧ stop.isWord "end" = true ∧
      Derives .anyCase (test ++ front) (.blocks found)
  statement : ∀ topLevel head ending result rest, Reads (statement topLevel head) ending tokens result rest →
    ∃ front, tokens = front ++ rest ∧ Outermost .anyCase (head :: front) result ∧
      (topLevel = false → Derives .anyCase (head :: front) (.statement result))

/-- All shorter lists of tokens are read soundly. -/
def SoundBelow (tokens : List Token) : Prop :=
  ∀ fewer : List Token, fewer.length < tokens.length → Lexed fewer → Sound fewer

theorem sound_body (lexed : Lexed tokens) (shorter : SoundBelow tokens) {ends : Token → Bool}
    {statements : List (Statement Pos)} {stop : Token} (reads : Reads (body ends) ending tokens (statements, stop) rest) :
    ∃ front, tokens = front ++ stop :: rest ∧ ends stop = true ∧ Derives .anyCase front (.body statements) := by
  rcases reads_body_iff.mp reads with
    ⟨rfl, isEnd, rfl⟩ | ⟨head, tail, first, later, others, rfl, _, readsFirst, readsOthers, rfl⟩
  · exact ⟨[], rfl, isEnd, .nothing⟩
  · have fewer : later.length < (head :: tail).length := Nat.lt_succ_of_lt readsFirst.shorter
    have lexedTail : Lexed tail := lexed_of_append [head] lexed
    obtain ⟨front, rfl, _, derives⟩ :=
      (shorter tail (Nat.lt_succ_self _) lexedTail).statement _ _ _ _ _ readsFirst
    obtain ⟨next, rfl, isEnd, later⟩ := (shorter later fewer (lexed_of_append _ lexedTail)).body _ _ _ _ _ readsOthers
    exact ⟨head :: front ++ next, by simp, isEnd, .next (derives rfl) later⟩

/-- A word that ends a block. -/
theorem isWord_of_endsBlock {stop : Token} (isEnd : endsBlock stop = true) : stop.isWord stop.text = true := by
  simp only [endsBlock, Bool.or_eq_true, isWord_eq_true_iff] at isEnd
  refine isWord_eq_true_iff.mpr ⟨?_, rfl⟩
  rcases isEnd with (isEnd | isElse) | isElif
  · exact isEnd.1
  · exact isElse.1
  · exact isElif.1

/-- The statements after `else` are the last of the `if`. -/
theorem sound_otherwise (sound : Sound tokens) {found : List (Block Pos)} {place : Pos}
    (reads : Reads (blocks .otherwise) ending tokens (found, place) rest) :
    ∃ front stop statements, tokens = front ++ stop :: rest ∧ stop.isWord "end" = true ∧
      found = [.mk .otherwise statements] ∧ Derives .anyCase front (.body statements) := by
  obtain ⟨statements, stop, middle, others, readsBody, goesOn, rfl⟩ := reads_blocks_iff.mp reads
  obtain ⟨front, rfl, isEnd, derives⟩ := sound.body _ _ _ _ _ readsBody
  cases goesOn with
  | finish isWord => exact ⟨front, stop, statements, rfl, isWord ▸ isWord_of_endsBlock isEnd, rfl, derives⟩
  | otherwise _ tested _ _ => exact absurd rfl tested
  | next _ tested _ _ _ => exact absurd rfl tested

theorem sound_blocks (lexed : Lexed tokens) (shorter : SoundBelow tokens) {test : List Token} {condition : Condition}
    {found : List (Block Pos)} {place : Pos} (isCondition : IsCondition test condition)
    (reads : Reads (blocks condition) ending tokens (found, place) rest) :
    ∃ front stop, tokens = front ++ stop :: rest ∧ stop.isWord "end" = true ∧
      Derives .anyCase (test ++ front) (.blocks found) := by
  obtain ⟨statements, stop, middle, others, readsBody, goesOn, rfl⟩ := reads_blocks_iff.mp reads
  have fewer := readsBody.shorter
  obtain ⟨front, rfl, isEnd, inner⟩ := sound_body lexed shorter readsBody
  have isStop := isWord_of_endsBlock isEnd
  have lexedMiddle : Lexed middle := lexed_of_append [stop] (lexed_of_append front lexed)
  cases goesOn with
  | finish isWord => exact ⟨front, stop, rfl, isWord ▸ isStop, .lastBlock isCondition inner⟩
  | otherwise _ _ isElse readsOthers =>
      obtain ⟨last, final, statements, rfl, isFinal, rfl, derives⟩ :=
        sound_otherwise (shorter _ fewer lexedMiddle) readsOthers
      exact ⟨front ++ stop :: last, final, by simp, isFinal, .elseBlock isCondition inner (isElse ▸ isStop) derives⟩
  | next notEnd _ notElse readsCondition readsOthers =>
      have isElif : stop.text = "elif" := by
        have listed := mem_endWords_of_endsBlock stop isEnd
        simpa [endWords, notEnd, notElse] using listed
      have less := Nat.lt_trans readsCondition.shorter fewer
      obtain ⟨next, rfl, isNext⟩ := accepts_condition.form lexedMiddle readsCondition
      obtain ⟨later, final, rfl, isFinal, derives⟩ :=
        (shorter _ less (lexed_of_append next lexedMiddle)).blocks _ _ _ _ _ _ isNext readsOthers
      exact ⟨front ++ stop :: (next ++ later), final, by simp, isFinal,
        .elifBlock isCondition inner (isElif ▸ isStop) derives⟩

theorem sound_statement (lexed : Lexed tokens) (shorter : SoundBelow tokens) {topLevel : Bool} {head : Token}
    {result : Statement Pos} (reads : Reads (statement topLevel head) ending tokens result rest) :
    ∃ front, tokens = front ++ rest ∧ Outermost .anyCase (head :: front) result ∧
      (topLevel = false → Derives .anyCase (head :: front) (.statement result)) := by
  obtain ⟨isName, ways⟩ := reads_statement_iff.mp reads
  have isWord {word : String} (sameText : head.text = word) : head.isWord word = true :=
    isWord_eq_true_iff.mpr ⟨isName, sameText⟩
  cases ways with
  | sub isSub outermost readsName readsBody =>
      have fewer := readsName.shorter
      obtain ⟨name, rfl, isName, rfl⟩ := reads_identifier_iff.mp readsName
      obtain ⟨front, rfl, isEnd, derives⟩ :=
        (shorter _ fewer (lexed_of_append [name] lexed)).body _ _ _ _ _ readsBody
      refine ⟨name :: (front ++ [_]), by simp, .sub (isWord isSub) isName derives isEnd, fun inside => ?_⟩
      cases outermost.symm.trans inside
  | group isGroup outermost readsGroup =>
      obtain ⟨name, front, stop, rfl, isName, sameName, areNames, isStop⟩ :=
        (reads_groupDeclaration_form lexed).mp readsGroup
      have derived : Outermost .anyCase _ _ := .group (isWord isGroup) isName areNames isStop
      rw [sameName] at derived
      refine ⟨name :: (front ++ [stop]), by simp, derived, fun inside => ?_⟩
      cases outermost.symm.trans inside
  | @choice condition middle found stop _ isIf readsCondition readsBlocks complete =>
      have fewer := readsCondition.shorter
      obtain ⟨test, rfl, isCondition⟩ := accepts_condition.form lexed readsCondition
      have nonempty : found ≠ [] := by
        obtain ⟨_, _, _, _, _, _, rfl⟩ := reads_blocks_iff.mp readsBlocks
        exact List.cons_ne_nil _ _
      obtain ⟨front, stop, rfl, isEnd, inner⟩ :=
        (shorter _ fewer (lexed_of_append test lexed)).blocks _ _ _ _ _ _ isCondition readsBlocks
      have derives := Derives.choice (isWord isIf) inner ((complete_iff_closed nonempty).mp complete) isEnd
      exact ⟨test ++ front ++ [stop], by simp, .statement derives, fun _ => derives⟩
  | leaf _ _ _ known readsLeaf =>
      obtain ⟨front, rfl, derives⟩ := derives_of_leaf isName known lexed readsLeaf
      exact ⟨front, rfl, .statement derives, fun _ => derives⟩

theorem sound_of_lexed (lexed : Lexed tokens) : Sound tokens := by
  induction size : tokens.length using Nat.strongRecOn generalizing tokens with
  | ind count ih =>
      have shorter : SoundBelow tokens := fun fewer less lexedFewer => ih fewer.length (size ▸ less) lexedFewer rfl
      exact ⟨fun _ _ _ _ _ => sound_body lexed shorter, fun _ _ _ _ _ _ => sound_blocks lexed shorter,
        fun _ _ _ _ _ => sound_statement lexed shorter⟩

/-- The parser reads the phrase from these tokens, whatever tokens follow. -/
def Recognised (tokens : List Token) : Phrase → Prop
  | .statement result => ∃ head tail, tokens = head :: tail ∧ head.text ∉ endWords ∧
      ∀ topLevel ending rest, Lexed (tail ++ rest) → Reads (statement topLevel head) ending (tail ++ rest) result rest
  | .body statements => ∀ ends ending stop rest, (∀ token, ends token = true → token.text ∈ endWords) →
      ends stop = true → Lexed (tokens ++ stop :: rest) →
      Reads (body ends) ending (tokens ++ stop :: rest) (statements, stop) rest
  | .blocks found => ∃ test condition later, tokens = test ++ later ∧ IsCondition test condition ∧
      ∀ ending stop rest, stop.isWord "end" = true → Lexed (later ++ stop :: rest) →
        Reads (blocks condition) ending (later ++ stop :: rest) (found, stop.pos) rest

theorem endsBlock_of_isWord {stop : Token} {word : String} (isStop : stop.isWord word = true)
    (listed : word ∈ endWords) : endsBlock stop = true := by
  obtain ⟨kind, rfl⟩ := isWord_eq_true_iff.mp isStop
  exact endsBlock_of_word (by rw [Token.word, kind]; rfl) listed

theorem recognised_leaf {head : Token} {tail : List Token} {keyword : String} {parser : Parser (Statement Pos)}
    {result : Statement Pos} (isKeyword : head.isWord keyword = true) (known : leaf? head.pos keyword = some parser)
    (reads : ∀ ending rest, Lexed (tail ++ rest) → Reads parser ending (tail ++ rest) result rest) :
    Recognised (head :: tail) (.statement result) := by
  obtain ⟨isName, rfl⟩ := isWord_eq_true_iff.mp isKeyword
  have other (word : String) (unknown : leaf? head.pos word = none) : head.text ≠ word := by
    rintro rfl
    rw [unknown] at known
    cases known
  refine ⟨head, tail, rfl, ?_, fun topLevel ending rest lexed => ?_⟩
  · simp [endWords, other "end" rfl, other "else" rfl, other "elif" rfl]
  · exact reads_statement_iff.mpr ⟨isName, .leaf (other "sub" rfl) (other "group" rfl) (other "if" rfl) known
      (reads ending rest lexed)⟩

/-- A field keyword starts a statement. -/
theorem leaf?_of_field? {pos : Pos} {keyword : String} {parser : Parser Field} (known : field? keyword = some parser) :
    leaf? pos keyword = some (beforeMark .semicolon (parser.map (.field pos))) := by
  unfold leaf?
  split
  · cases known
  · cases known
  · cases known
  · rw [known, Option.map_some]

theorem ne_otherwise_of_isCondition {condition : Condition} (isCondition : IsCondition tokens condition) :
    condition ≠ .otherwise := by
  cases isCondition <;> exact Condition.noConfusion

theorem reads_lastBlock {condition : Condition} {statements : List (Statement Pos)} {stop : Token}
    (isEnd : stop.isWord "end" = true) (reads : Reads (body endsBlock) ending tokens (statements, stop) rest) :
    Reads (blocks condition) ending tokens ([.mk condition statements], stop.pos) rest :=
  reads_blocks_iff.mpr ⟨statements, stop, rest, [], reads, .finish (isWord_eq_true_iff.mp isEnd).2, rfl⟩

/-- The induction is on the derivation; what stands after a phrase is left open. -/
theorem recognised_of_derives {phrase : Phrase} (derives : Derives .anyCase tokens phrase) :
    Recognised tokens phrase := by
  induction derives with
  | call isCall isName isStop =>
      refine recognised_leaf isCall rfl fun ending rest _ => ?_
      exact reads_beforeMark_iff.mpr ⟨_, .inl isStop, reads_map_iff.mpr
        ⟨_, reads_identifier_iff.mpr ⟨_, rfl, isName, rfl⟩, rfl⟩⟩
  | unimplemented isUnimplemented isStop =>
      refine recognised_leaf isUnimplemented rfl fun ending rest _ => ?_
      exact reads_map_iff.mpr ⟨_, reads_token_iff.mpr ⟨rfl, .inl isStop⟩, rfl⟩
  | doc isDoc isName isStop =>
      refine recognised_leaf isDoc rfl fun ending rest _ => ?_
      exact reads_beforeMark_iff.mpr ⟨_, .inl isStop, reads_map_iff.mpr
        ⟨_, reads_identifier_iff.mpr ⟨_, rfl, isName, rfl⟩, rfl⟩⟩
  | @field head stop keyword tokens value isKeyword isField isStop =>
      obtain ⟨parser, known, reads⟩ := reads_of_isField isField
      refine recognised_leaf isKeyword (leaf?_of_field? known) fun ending rest lexed => ?_
      rw [List.append_assoc] at lexed ⊢
      have ends : EndsList (stop :: rest) := endsList_of_nextIs (by decide) (congrArg some isStop)
      exact reads_beforeMark_iff.mpr ⟨stop, .inl isStop, reads_map_iff.mpr ⟨value, reads _ _ lexed ends, rfl⟩⟩
  | @choice head stop tokens found isIf inner closed isEnd ih =>
      obtain ⟨test, condition, later, rfl, isCondition, reads⟩ := ih
      obtain ⟨isName, isWord⟩ := isWord_eq_true_iff.mp isIf
      refine ⟨head, _, rfl, by simp [endWords, isWord], fun topLevel ending rest lexed => ?_⟩
      rw [List.append_assoc, List.append_assoc] at lexed ⊢
      have tested := (accepts_condition ending _ _ _ lexed).mpr ⟨test, rfl, isCondition, trivial⟩
      have nonempty : found ≠ [] := by
        obtain ⟨earlier, last, rfl, _⟩ := closed
        exact List.append_ne_nil_of_right_ne_nil _ (List.cons_ne_nil _ _)
      exact reads_statement_iff.mpr ⟨isName, .choice isWord tested
        (reads ending stop rest isEnd (lexed_of_append test lexed)) ((complete_iff_closed nonempty).mpr closed)⟩
  | nothing =>
      intro ends ending stop rest _ isEnd _
      exact reads_body_iff.mpr (.inl ⟨rfl, isEnd, rfl⟩)
  | next isStatement later ihStatement ihLater =>
      obtain ⟨head, tail, rfl, notEnd, reads⟩ := ihStatement
      intro ends ending stop rest onlyEnds isEnd lexed
      rw [List.append_assoc] at lexed ⊢
      have goesOn : ends head = false := by
        cases isEnd : ends head with
        | false => rfl
        | true => exact absurd (onlyEnds head isEnd) notEnd
      have lexedTail := lexed_of_append [head] lexed
      exact reads_body_iff.mpr (.inr ⟨head, _, _, _, _, rfl, goesOn, reads _ _ _ lexedTail,
        ihLater _ _ _ _ onlyEnds isEnd (lexed_of_append _ lexedTail), rfl⟩)
  | lastBlock isCondition inner ih =>
      refine ⟨_, _, _, rfl, isCondition, fun ending stop rest isEnd lexed => ?_⟩
      have reads := ih endsBlock ending stop rest mem_endWords_of_endsBlock (endsBlock_of_isWord isEnd (by decide)) lexed
      exact reads_lastBlock isEnd reads
  | @elseBlock test tokens rest word condition statements others isCondition inner isElse last ihInner ihLast =>
      refine ⟨test, condition, _, rfl, isCondition, fun ending stop rest isEnd lexed => ?_⟩
      rw [List.append_assoc] at lexed ⊢
      have isWord := (isWord_eq_true_iff.mp isElse).2
      have reads := ihInner endsBlock ending word _ mem_endWords_of_endsBlock
        (endsBlock_of_isWord isElse (by decide)) lexed
      have readsLast := ihLast endsBlock ending stop rest mem_endWords_of_endsBlock
        (endsBlock_of_isWord isEnd (by decide)) (lexed_of_append [word] (lexed_of_append _ lexed))
      exact reads_blocks_iff.mpr ⟨statements, word, _, _, reads, .otherwise (by simp [isWord])
        (ne_otherwise_of_isCondition isCondition) isWord (reads_lastBlock isEnd readsLast), rfl⟩
  | @elifBlock test tokens rest word condition statements blocks isCondition inner isElif _ ihInner ihLater =>
      obtain ⟨next, tested, later, rfl, isNext, readsLater⟩ := ihLater
      refine ⟨test, condition, _, rfl, isCondition, fun ending stop rest isEnd lexed => ?_⟩
      rw [List.append_assoc] at lexed ⊢
      have isWord := (isWord_eq_true_iff.mp isElif).2
      have reads := ihInner endsBlock ending word _ mem_endWords_of_endsBlock
        (endsBlock_of_isWord isElif (by decide)) lexed
      have lexedNext : Lexed (next ++ (later ++ stop :: rest)) := by
        simpa using lexed_of_append [word] (lexed_of_append _ lexed)
      have readsNext := (accepts_condition ending _ _ _ lexedNext).mpr ⟨next, rfl, isNext, trivial⟩
      refine reads_blocks_iff.mpr ⟨statements, word, _, _, reads, .next (by simp [isWord]) (ne_otherwise_of_isCondition isCondition)
        (by simp [isWord]) ?_ (readsLater ending stop rest isEnd (lexed_of_append next lexedNext)), rfl⟩
      simpa using readsNext

/-- A statement of the outermost level is read from the tokens that derive it. -/
theorem reads_of_outermost {front : List Token} {result : Statement Pos} (outermost : Outermost .anyCase front result) :
    ∃ head tail, front = head :: tail ∧ ∀ ending rest, Lexed (tail ++ rest) →
      Reads (statement true head) ending (tail ++ rest) result rest := by
  cases outermost with
  | @sub head name stop tokens statements isSub isName inner isEnd =>
      obtain ⟨isHead, isWord⟩ := isWord_eq_true_iff.mp isSub
      refine ⟨head, _, rfl, fun ending rest lexed => ?_⟩
      rw [List.cons_append, List.append_assoc] at lexed ⊢
      have ends (token : Token) (isEnd : endsSub token = true) : token.text ∈ endWords := by
        simp [(isWord_eq_true_iff.mp isEnd).2, endWords]
      have reads := recognised_of_derives inner endsSub ending stop rest ends isEnd (lexed_of_append [name] lexed)
      exact reads_statement_iff.mpr ⟨isHead, .sub isWord rfl
        (reads_identifier_iff.mpr ⟨name, rfl, isName, rfl⟩) reads⟩
  | @group head name stop tokens factions isGroup isName areNames isStop =>
      obtain ⟨isHead, isWord⟩ := isWord_eq_true_iff.mp isGroup
      refine ⟨head, _, rfl, fun ending rest lexed => ?_⟩
      rw [List.cons_append, List.append_assoc] at lexed ⊢
      exact reads_statement_iff.mpr ⟨isHead, .group isWord rfl ((reads_groupDeclaration_form lexed).mpr
        ⟨name, tokens, stop, rfl, isName, rfl, areNames, isStop⟩)⟩
  | statement derives =>
      obtain ⟨head, tail, rfl, _, reads⟩ := recognised_of_derives derives
      exact ⟨head, tail, rfl, reads true⟩

theorem script_eq_ok_iff_isScript {program : Program} (lexed : Lexed tokens) :
    script ending tokens = .ok program ↔ (∃ pos, ending = .endOfFile pos) ∧ IsScript .anyCase tokens program := by
  constructor
  · intro success
    induction size : tokens.length using Nat.strongRecOn generalizing tokens program with
    | ind count ih =>
        rcases script_eq_ok_iff.mp success with
          ⟨rfl, rfl, isEnd⟩ | ⟨head, tail, first, later, others, rfl, readsFirst, foundOthers, rfl⟩
        · exact ⟨isEnd, .nil⟩
        · have fewer : later.length < count := size ▸ Nat.lt_succ_of_lt readsFirst.shorter
          have lexedTail : Lexed tail := lexed_of_append [head] lexed
          obtain ⟨front, rfl, outermost, _⟩ := (sound_of_lexed lexedTail).statement _ _ _ _ _ readsFirst
          obtain ⟨isEnd, isScript⟩ := ih _ fewer (lexed_of_append front lexedTail) foundOthers rfl
          exact ⟨isEnd, .cons outermost isScript⟩
  · rintro ⟨isEnd, isScript⟩
    induction isScript with
    | nil => exact script_eq_ok_iff.mpr (.inl ⟨rfl, rfl, isEnd⟩)
    | @cons first rest statement others outermost later ih =>
        obtain ⟨head, tail, rfl, reads⟩ := reads_of_outermost outermost
        have lexedTail : Lexed (tail ++ rest) := lexed_of_append [head] lexed
        exact script_eq_ok_iff.mpr (.inr ⟨head, tail ++ rest, statement, rest, others, rfl, reads ending rest lexedTail,
          ih (lexed_of_append tail lexedTail), rfl⟩)

end Script.Parser

namespace Script.Derivation

/-- All statements of a phrase. -/
def Phrase.inside : Phrase → List (Statement Pos)
  | .statement single => single.walk
  | .body statements => Statement.walkBody statements
  | .blocks several => Statement.walkBlocks several

theorem isDeclaration_of_derives {spelled : Spelling} {tokens : List Token} {phrase : Phrase}
    (derives : Derives spelled tokens phrase) : ∀ inner ∈ phrase.inside, inner.isDeclaration = false := by
  induction derives with
  | call _ _ _ => exact List.forall_mem_singleton.mpr rfl
  | unimplemented _ _ => exact List.forall_mem_singleton.mpr rfl
  | doc _ _ _ => exact List.forall_mem_singleton.mpr rfl
  | field _ _ _ => exact List.forall_mem_singleton.mpr rfl
  | choice _ _ _ _ ih => exact List.forall_mem_cons.mpr ⟨rfl, ih⟩
  | nothing => exact fun _ member => absurd member List.not_mem_nil
  | next _ _ ihStatement ihOthers => exact List.forall_mem_append.mpr ⟨ihStatement, ihOthers⟩
  | lastBlock _ _ ih =>
      exact List.forall_mem_append.mpr ⟨ih, fun _ member => absurd member List.not_mem_nil⟩
  | elseBlock _ _ _ _ ihBody ihLast =>
      refine List.forall_mem_append.mpr ⟨ihBody, List.forall_mem_append.mpr ⟨ihLast, ?_⟩⟩
      exact fun _ member => absurd member List.not_mem_nil
  | elifBlock _ _ _ _ ihBody ihLater => exact List.forall_mem_append.mpr ⟨ihBody, ihLater⟩

/-- Only the outermost statements of a script can be declarations. -/
theorem IsScript.flat {spelled : Spelling} {tokens : List Token} {program : Program}
    (isScript : IsScript spelled tokens program) : Flat program := by
  induction isScript with
  | nil => exact fun _ member => absurd member List.not_mem_nil
  | cons outermost _ ih =>
      refine List.forall_mem_cons.mpr ⟨fun inner member => ?_, ih⟩
      cases outermost with
      | sub _ _ derives _ => exact isDeclaration_of_derives derives inner member
      | group _ _ _ _ => cases member
      | statement derives => exact isDeclaration_of_derives derives inner (List.mem_of_mem_tail member)

end Script.Derivation

namespace Script

open MissionGraph.Script.Derivation

/-- No declaration is read inside another statement. -/
theorem flat_of_parse {text : String} {program : Program} (parsed : parse text = .ok program) : Flat program :=
  ((Parser.script_eq_ok_iff_isScript (lexed_of_mem_tokenList _)).mp parsed).2.flat

/-- A text is read as a script exactly if it consists of tokens and they derive the script, the words of offers
in any letter case. -/
theorem parse_eq_ok_iff_derived (text : String) (program : Program) :
    parse text = .ok program ↔
      (∃ pos, (TokenList.ofText text).ending = .endOfFile pos) ∧
        IsScript .anyCase (TokenList.ofText text).tokens program :=
  Parser.script_eq_ok_iff_isScript (lexed_of_mem_tokenList _)

/-- With the words of offers in their exact spelling this fails: `SINGULAR` would be an argument of the item in
front of it, but it is read as the plurality of the next item. -/
theorem not_parse_eq_ok_iff_exact :
    ¬ ∀ text program, parse text = .ok program ↔
      (∃ pos, (TokenList.ofText text).ending = .endOfFile pos) ∧
        IsScript .exact (TokenList.ofText text).tokens program := by
  intro exact
  have tokens : TokenList.ofText "offer_text (append(1, SINGULAR, 2));" =
      ⟨[⟨.identifier, "offer_text", ⟨1, 1⟩⟩, ⟨.leftParen, "(", ⟨1, 12⟩⟩, ⟨.identifier, "append", ⟨1, 13⟩⟩,
        ⟨.leftParen, "(", ⟨1, 19⟩⟩, ⟨.integer, "1", ⟨1, 20⟩⟩, ⟨.comma, ",", ⟨1, 21⟩⟩,
        ⟨.identifier, "SINGULAR", ⟨1, 23⟩⟩, ⟨.comma, ",", ⟨1, 31⟩⟩, ⟨.integer, "2", ⟨1, 33⟩⟩,
        ⟨.rightParen, ")", ⟨1, 34⟩⟩, ⟨.rightParen, ")", ⟨1, 35⟩⟩, ⟨.semicolon, ";", ⟨1, 36⟩⟩],
        .endOfFile ⟨1, 37⟩⟩ := by decide +kernel
  have argument : IsArgument .exact [⟨.identifier, "SINGULAR", ⟨1, 23⟩⟩] "SINGULAR" :=
    ⟨.mk rfl, by unfold Spelling.exact; decide, by unfold Spelling.exact; decide⟩
  have first : IsItem .exact [⟨.integer, "1", ⟨1, 20⟩⟩, ⟨.comma, ",", ⟨1, 21⟩⟩, ⟨.identifier, "SINGULAR", ⟨1, 23⟩⟩]
      ⟨.none, 1, ["SINGULAR"]⟩ :=
    .plain (.mk (.mk rfl (by decide +kernel)) (@More.cons _ _ ⟨.comma, ",", ⟨1, 21⟩⟩ _ _ _ _ rfl argument .nil))
  have second : IsItem .exact [⟨.integer, "2", ⟨1, 33⟩⟩] ⟨.none, 2, []⟩ :=
    .plain (.mk (.mk rfl (by decide +kernel)) .nil)
  have items : AreItems .exact _ [⟨.none, 1, ["SINGULAR"]⟩, ⟨.none, 2, []⟩] :=
    .next first (.present (show (Token.mk .comma "," ⟨1, 31⟩).kind = .comma from rfl)) (.last second .absent)
  have entry : IsOffer .exact _ ⟨.append, [⟨.none, 1, ["SINGULAR"]⟩, ⟨.none, 2, []⟩]⟩ :=
    .mk (.mk (show (Token.mk .identifier "append" ⟨1, 13⟩).kind = .identifier from rfl) rfl)
      (show (Token.mk .leftParen "(" ⟨1, 19⟩).kind = .leftParen from rfl) items
      (show (Token.mk .rightParen ")" ⟨1, 34⟩).kind = .rightParen from rfl)
  have entries : AreOffers .exact _ _ :=
    .mk (show (Token.mk .leftParen "(" ⟨1, 12⟩).kind = .leftParen from rfl) (.mk entry .nil)
      (show (Token.mk .rightParen ")" ⟨1, 35⟩).kind = .rightParen from rfl)
  have statement : Derives .exact _ _ :=
    .field (show (Token.mk .identifier "offer_text" ⟨1, 1⟩).isWord "offer_text" = true from by decide)
      (.offers entries) (show (Token.mk .semicolon ";" ⟨1, 36⟩).kind = .semicolon from rfl)
  have derived : IsScript .exact _ _ := .cons (.statement statement) .nil
  have parsed := (exact "offer_text (append(1, SINGULAR, 2));" _).mpr
    ⟨⟨⟨1, 37⟩, by rw [tokens]⟩, by rw [tokens]; exact derived⟩
  -- what is read has no argument that marks a plurality
  have formed := wellFormed_of_parse parsed _ (List.mem_append_left _ List.mem_cons_self)
  have unmarked : ¬ Text.sameLetters "singular" "SINGULAR" = true := by
    simp only [Statement.wellFormed, Field.wellFormed, Offer.wellFormed, OfferItem.wellFormed, List.all_cons,
      Bool.and_eq_true] at formed
    have isNone := formed.2.1.2.1.2.1
    rw [Option.isNone_iff_eq_none, Plurality.ofMarker?, Mission.ofWord?, List.find?_eq_none] at isNone
    exact isNone .singular List.mem_cons_self
  refine unmarked ?_
  rw [Text.sameLetters_iff]
  show "singular".map Char.toLower = "SINGULAR".map Char.toLower
  rw [← String.toList_inj, String.toList_map, String.toList_map]
  decide +kernel

end Script

end MissionGraph
