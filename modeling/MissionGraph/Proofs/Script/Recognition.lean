import MissionGraph.Proofs.Script.Grammar
import MissionGraph.Proofs.Script.Notes
import MissionGraph.Proofs.Script.Words

/-!
# Reading a written script

The parser reads every statement from tokens that spell its words. So a script whose statements can all be
written down is read back from any text that spells it, up to the places of its statements.
-/

namespace MissionGraph.Script

open Mission (Comm Difficulty Field Message Objective Offer OfferItem OfferMode Party Plurality)
open Number (Single intText)

variable {α β : Type}

namespace Parser

variable {ending : Ending} {tokens rest : List Token}

/-- In front of such a rest, the parser reads the value from tokens that spell the words and from no more. -/
def Takes (before : List Token → Prop) (parser : Parser α) (words : List Word) (value : α) : Prop :=
  ∀ ending tokens rest, tokens.map Token.word = words → before rest →
    Reads parser ending (tokens ++ rest) value rest

/-- Any tokens at all. -/
def Anything (_ : List Token) : Prop := True

/-- The tokens do not continue a list. -/
def EndsList (rest : List Token) : Prop :=
  ¬ NextIs .comma rest

variable {before : List Token → Prop} {parser : Parser α} {words others : List Word} {value : α}

theorem Takes.mono {after : List Token → Prop} (takes : Takes before parser words value)
    (implies : ∀ rest, after rest → before rest) : Takes after parser words value :=
  fun ending tokens rest spelled holds => takes ending tokens rest spelled (implies rest holds)

theorem map_word_eq_cons_iff {word : Word} :
    tokens.map Token.word = word :: words ↔
      ∃ token tail, tokens = token :: tail ∧ token.word = word ∧ tail.map Token.word = words := by
  rw [List.map_eq_cons_iff]

theorem takes_identifier (name : String) : Takes before identifier [.name name] name := by
  rintro ending tokens rest spelled _
  obtain ⟨token, tail, rfl, isName, nothing⟩ := map_word_eq_cons_iff.mp spelled
  cases List.map_eq_nil_iff.mp nothing
  exact reads_identifier_iff.mpr ⟨token, rfl, congrArg Word.kind isName, congrArg Word.text isName⟩

theorem takes_integer (value : Int32) : Takes before integer [.integer (intText value.toInt)] value := by
  rintro ending tokens rest spelled _
  obtain ⟨token, tail, rfl, isInteger, nothing⟩ := map_word_eq_cons_iff.mp spelled
  cases List.map_eq_nil_iff.mp nothing
  have kind : token.kind = .integer := congrArg Word.kind isInteger
  have text : token.text = intText value.toInt := congrArg Word.text isInteger
  exact reads_integer_iff.mpr ⟨token, rfl, kind, by rw [text, Number.readInt32?_intText]⟩

theorem takes_number {value : Single} (finite : value.isFinite = true) :
    Takes before number [.number value.text] value := by
  rintro ending tokens rest spelled _
  obtain ⟨token, tail, rfl, isNumber, nothing⟩ := map_word_eq_cons_iff.mp spelled
  cases List.map_eq_nil_iff.mp nothing
  have kind : token.kind = if '.' ∈ value.text.toList then .float else .integer := congrArg Word.kind isNumber
  have text : token.text = value.text := congrArg Word.text isNumber
  have fits : Fits .float token := by
    split at kind
    · exact .inl kind
    · exact .inr ⟨rfl, kind⟩
  refine reads_number_iff.mpr ⟨token, rfl, fits, ?_⟩
  cases value with
  | finite value => rw [text, Single.text, String.toList_ofList, Number.Finite.read?_text]
  | infinite _ => cases finite
  | undefined => cases finite

theorem takes_word {slot : Slot} {ofWord? : String → Option α} {text : String}
    (known : ofWord? text = some value) : Takes before (word slot ofWord?) [.name text] value := by
  rintro ending tokens rest spelled _
  obtain ⟨token, tail, rfl, isName, nothing⟩ := map_word_eq_cons_iff.mp spelled
  cases List.map_eq_nil_iff.mp nothing
  have sameText : token.text = text := congrArg Word.text isName
  exact reads_word_iff.mpr ⟨token, rfl, congrArg Word.kind isName, sameText ▸ known⟩

theorem Takes.map {f : α → β} (takes : Takes before parser words value) :
    Takes before (parser.map f) words (f value) :=
  fun ending tokens rest spelled holds =>
    reads_map_iff.mpr ⟨value, takes ending tokens rest spelled holds, rfl⟩

theorem Takes.bind {second : α → Parser β} {result : β} (takes : Takes Anything parser words value)
    (later : Takes before (second value) others result) :
    Takes before (parser.bind second) (words ++ others) result := by
  rintro ending tokens rest spelled holds
  obtain ⟨first, tail, rfl, spelledFirst, spelledTail⟩ := List.map_eq_append_iff.mp spelled
  rw [List.append_assoc]
  exact reads_bind_iff.mpr ⟨value, tail ++ rest, takes _ _ _ spelledFirst trivial,
    later _ _ _ spelledTail holds⟩

theorem Takes.afterMark {kind : TokenKind} {text : String} (takes : Takes before parser words value) :
    Takes before (afterMark kind parser) (⟨kind, text⟩ :: words) value := by
  rintro ending tokens rest spelled holds
  obtain ⟨mark, tail, rfl, isMark, spelledTail⟩ := map_word_eq_cons_iff.mp spelled
  exact reads_afterMark_iff.mpr ⟨mark, tail ++ rest, rfl, .inl (congrArg Word.kind isMark),
    takes _ _ _ spelledTail holds⟩

theorem Takes.beforeMark {kind : TokenKind} {text : String}
    (takes : Takes (NextIs kind) parser words value) :
    Takes before (beforeMark kind parser) (words ++ [⟨kind, text⟩]) value := by
  rintro ending tokens rest spelled _
  obtain ⟨inner, last, rfl, spelledInner, spelledLast⟩ := List.map_eq_append_iff.mp spelled
  obtain ⟨mark, tail, rfl, isMark, nothing⟩ := map_word_eq_cons_iff.mp spelledLast
  cases List.map_eq_nil_iff.mp nothing
  have kindOf : mark.kind = kind := congrArg Word.kind isMark
  rw [List.append_assoc]
  exact reads_beforeMark_iff.mpr ⟨mark, .inl kindOf, takes _ _ _ spelledInner (congrArg some kindOf)⟩

theorem endsList_of_nextIs {kind : TokenKind} (other : kind ≠ .comma) (next : NextIs kind rest) : EndsList rest := by
  intro isComma
  rw [NextIs, next] at isComma
  exact other (Option.some.inj isComma)

/-- Values with commas between them. -/
theorem takes_separated {item : Parser α} {parts : List (List Word)} {values : List α} (nonempty : values ≠ [])
    (taken : List.Forall₂ (Takes Anything item) parts values) :
    Takes EndsList (separated .comma item) (listWords parts) values := by
  induction taken with
  | nil => exact absurd rfl nonempty
  | @cons part value parts values takes later ih =>
      rintro ending tokens rest spelled ends
      cases later with
      | nil =>
          rw [listWords, List.flatMap_nil, List.append_nil] at spelled
          exact reads_separated_iff.mpr (.inl ⟨value, takes _ _ _ spelled trivial, ends, rfl⟩)
      | cons _ _ =>
          rw [listWords_cons_cons] at spelled
          obtain ⟨first, tail, rfl, spelledFirst, spelledTail⟩ := List.map_eq_append_iff.mp spelled
          obtain ⟨mark, others, rfl, isMark, spelledOthers⟩ := map_word_eq_cons_iff.mp spelledTail
          rw [List.append_assoc]
          exact reads_separated_iff.mpr (.inr ⟨value, mark, others ++ rest, _, takes _ _ _ spelledFirst trivial,
            congrArg Word.kind isMark, ih (List.cons_ne_nil _ _) _ _ _ spelledOthers ends, rfl⟩)

theorem takes_names {list : List String} (nonempty : list ≠ []) :
    Takes EndsList names (listWords (nameParts list)) list := by
  refine takes_separated nonempty ?_
  clear nonempty
  induction list with
  | nil => exact .nil
  | cons name rest ih => exact .cons (takes_identifier name) ih

/-! ## Field values -/

theorem takes_comm {comm : Comm} (finite : comm.numbers.all Single.isFinite = true) :
    Takes before Parser.comm (listWords comm.partWords) comm := by
  simp only [Comm.numbers, List.all_cons, List.all_nil, Bool.and_eq_true] at finite
  obtain ⟨first, second, third, _⟩ := finite
  have party (slot : Slot) (one : Party) : Takes Anything (word slot Party.ofWord?) [.name one.word] one :=
    takes_word (ValueReader.Party.ofWord?_word one).2
  exact (takes_identifier comm.event).bind ((party _ _).afterMark.bind ((takes_number first).afterMark.bind
    ((takes_number second).afterMark.bind ((takes_number third).afterMark.bind ((party _ _).afterMark.bind
      (takes_identifier comm.comm).afterMark.map)))))

theorem takes_message (message : Message) : Takes EndsList Parser.message (listWords message.partWords) message := by
  obtain ⟨id, args⟩ := message
  rintro ending tokens rest spelled ends
  refine reads_map_iff.mpr ?_
  cases args with
  | nil =>
      have reads := (takes_integer id : Takes Anything integer _ id) ending tokens rest spelled trivial
      exact ⟨(id, none), reads_andMaybe_iff.mpr (.inl ⟨id, reads, ends, rfl⟩), rfl⟩
  | cons arg args =>
      rw [Message.partWords, nameParts, List.map_cons, listWords_cons_cons] at spelled
      obtain ⟨first, tail, rfl, spelledFirst, spelledTail⟩ := List.map_eq_append_iff.mp spelled
      obtain ⟨mark, others, rfl, isMark, spelledOthers⟩ := map_word_eq_cons_iff.mp spelledTail
      have reads := (takes_integer id : Takes Anything integer _ id) ending first (mark :: (others ++ rest))
        spelledFirst trivial
      have list := takes_names (List.cons_ne_nil arg args) ending others rest spelledOthers ends
      refine ⟨(id, some (arg :: args)), reads_andMaybe_iff.mpr (.inr ?_), rfl⟩
      rw [List.append_assoc]
      exact ⟨id, mark, others ++ rest, arg :: args, reads, congrArg Word.kind isMark, list, rfl⟩

theorem takes_objective (objective : Objective) :
    Takes EndsList Parser.objective (listWords ([.name objective.target] :: objective.message.partWords))
      objective := by
  rw [Message.partWords, listWords_cons_cons]
  exact (takes_identifier objective.target).bind (takes_message objective.message).afterMark.map

theorem takes_difficulty {difficulty : Difficulty} (finite : difficulty.numbers.all Single.isFinite = true) :
    Takes before Parser.difficulty (listWords difficulty.partWords) difficulty := by
  simp only [Difficulty.numbers, List.all_cons, List.all_nil, Bool.and_eq_true] at finite
  exact (takes_number finite.1).bind (takes_number finite.2.1).afterMark.map

/-! ## Offers -/

/-- The names after the number of an offer item are taken up to where they stop. -/
theorem itemArgs_append {args : List String} {after : List Token}
    (plain : ∀ arg ∈ args, (Plurality.ofMarker? arg).isNone = true)
    (spelled : tokens.map Token.word = (nameParts args).flatMap (Word.comma :: ·))
    (stops : itemArgs rest = ([], after)) : itemArgs (tokens ++ rest) = (args, after) := by
  induction args generalizing tokens with
  | nil =>
      cases List.map_eq_nil_iff.mp spelled
      exact stops
  | cons arg args ih =>
      obtain ⟨mark, tail, rfl, isMark, spelledTail⟩ := map_word_eq_cons_iff.mp spelled
      obtain ⟨name, others, rfl, isName, spelledOthers⟩ := map_word_eq_cons_iff.mp spelledTail
      have later := ih (fun other member => plain other (List.mem_cons_of_mem _ member)) spelledOthers
      have comma : mark.kind = .comma := congrArg Word.kind isMark
      have kind : name.kind = .identifier := congrArg Word.kind isName
      have text : name.text = arg := congrArg Word.text isName
      simp only [List.cons_append, itemArgs, comma, kind, text, plain arg List.mem_cons_self, and_self, if_true, later]

theorem reads_itemMessage {message : Message} {after : List Token}
    (plain : ∀ arg ∈ message.args, (Plurality.ofMarker? arg).isNone = true)
    (spelled : tokens.map Token.word = listWords message.partWords) (stops : itemArgs rest = ([], after)) :
    Reads itemMessage ending (tokens ++ rest) message after := by
  obtain ⟨number, tail, rfl, isNumber, spelledTail⟩ := map_word_eq_cons_iff.mp spelled
  have reads := (takes_integer message.id : Takes Anything integer _ message.id) ending [number] (tail ++ rest)
    (by rw [List.map_cons, isNumber]; rfl) trivial
  have args := itemArgs_append plain spelledTail stops
  exact reads_itemMessage_iff.mpr ⟨message.id, tail ++ rest, reads, by rw [args], by rw [args]⟩

theorem listWords_append {first second : List (List Word)} (some_first : first ≠ []) (some_second : second ≠ []) :
    listWords (first ++ second) = listWords first ++ Word.comma :: listWords second := by
  cases first with
  | nil => exact absurd rfl some_first
  | cons part parts =>
      cases second with
      | nil => exact absurd rfl some_second
      | cons other others => simp [listWords]

theorem reads_offerItem {item : OfferItem} {after : List Token} (formed : item.wellFormed = true)
    (spelled : tokens.map Token.word = listWords item.partWords) (stops : itemArgs rest = ([], after)) :
    Reads offerItem ending (tokens ++ rest) item after := by
  obtain ⟨plurality, message⟩ := item
  simp only [OfferItem.wellFormed, Bool.and_eq_true, List.all_eq_true] at formed
  have marked (word : String) (picked : Plurality.ofMarker? word = some plurality)
      (isMarked : plurality.marker? = some word) :
      Reads offerItem ending (tokens ++ rest) ⟨plurality, message⟩ after := by
    rw [OfferItem.partWords, isMarked, Message.partWords] at spelled
    obtain ⟨marker, tail, rfl, isMarker, spelledTail⟩ := map_word_eq_cons_iff.mp spelled
    obtain ⟨mark, others, rfl, isMark, spelledOthers⟩ := map_word_eq_cons_iff.mp spelledTail
    have chosen : pluralityMarker? marker = some plurality := by
      have kind : marker.kind = .identifier := congrArg Word.kind isMarker
      have text : marker.text = word := congrArg Word.text isMarker
      rw [pluralityMarker?, if_pos kind, text, picked]
    have reads : Reads itemMessage ending (others ++ rest) message after :=
      reads_itemMessage formed.2 spelledOthers stops
    refine reads_byFirst_iff.mpr (.inl ⟨marker, mark :: others ++ rest, plurality, rfl, chosen, ?_⟩)
    exact reads_map_iff.mpr ⟨message, reads_afterMark_iff.mpr
      ⟨mark, others ++ rest, rfl, .inl (congrArg Word.kind isMark), reads⟩, rfl⟩
  cases plurality with
  | singular => exact marked "singular" (by decide +kernel) rfl
  | plural => exact marked "plural" (by decide +kernel) rfl
  | none =>
      have reads : Reads itemMessage ending (tokens ++ rest) message after :=
        reads_itemMessage formed.2 spelled stops
      refine reads_byFirst_iff.mpr (.inr ⟨fun first isFirst => ?_, reads_map_iff.mpr ⟨message, reads, rfl⟩⟩)
      obtain ⟨number, tail, rfl, isNumber, _⟩ := map_word_eq_cons_iff.mp spelled
      cases isFirst
      have kind : first.kind = .integer := congrArg Word.kind isNumber
      rw [pluralityMarker?, kind]
      rfl

/-- The first token of an offer item. -/
def StartsItem (token : Token) : Prop :=
  token.kind = .integer ∨ token.kind = .identifier ∧ (Plurality.ofMarker? token.text).isSome = true

theorem startsItem {item : OfferItem} {parts : List (List Word)}
    (spelled : tokens.map Token.word = listWords (item.partWords ++ parts)) :
    ∃ token tail, tokens = token :: tail ∧ StartsItem token := by
  obtain ⟨plurality, message⟩ := item
  cases plurality with
  | none =>
      obtain ⟨token, tail, rfl, isNumber, _⟩ := map_word_eq_cons_iff.mp spelled
      exact ⟨token, tail, rfl, .inl (congrArg Word.kind isNumber)⟩
  | singular =>
      obtain ⟨token, tail, rfl, isMarker, _⟩ := map_word_eq_cons_iff.mp spelled
      have text : token.text = "singular" := congrArg Word.text isMarker
      exact ⟨token, tail, rfl, .inr ⟨congrArg Word.kind isMarker, by rw [text]; decide +kernel⟩⟩
  | plural =>
      obtain ⟨token, tail, rfl, isMarker, _⟩ := map_word_eq_cons_iff.mp spelled
      have text : token.text = "plural" := congrArg Word.text isMarker
      exact ⟨token, tail, rfl, .inr ⟨congrArg Word.kind isMarker, by rw [text]; decide +kernel⟩⟩

theorem itemArgs_startsItem {mark token : Token} (isMark : mark.kind = .comma) (starts : StartsItem token) :
    itemArgs (mark :: token :: rest) = ([], token :: rest) := by
  have notArg : ¬ (token.kind = .identifier ∧ (Plurality.ofMarker? token.text).isNone = true) := by
    rintro ⟨isName, isNone⟩
    rcases starts with isNumber | ⟨_, isSome⟩
    · rw [isNumber] at isName
      cases isName
    · rw [Option.isNone_iff_eq_none] at isNone
      rw [isNone] at isSome
      cases isSome
  rw [itemArgs, if_pos isMark, if_neg notArg]

theorem itemArgs_endsList (ends : EndsList rest) : itemArgs rest = ([], rest) := by
  match rest with
  | [] => rfl
  | [last] =>
      rw [itemArgs, if_neg fun isComma => ends (congrArg some isComma)]
  | first :: second :: others =>
      rw [itemArgs, if_neg fun isComma => ends (congrArg some isComma)]

theorem partWords_ne_nil (item : OfferItem) : item.partWords ≠ [] := by
  simp [OfferItem.partWords, Message.partWords]

theorem takes_items {items : List OfferItem} (nonempty : items ≠ [])
    (formed : ∀ item ∈ items, item.wellFormed = true) :
    Takes (NextIs .rightParen) (upTo .rightParen offerItem)
      (listWords (items.flatMap OfferItem.partWords)) items := by
  induction items with
  | nil => exact absurd rfl nonempty
  | cons item items ih =>
      rintro ending tokens rest spelled isNext
      have itemFormed := formed item List.mem_cons_self
      cases items with
      | nil =>
          rw [List.flatMap_cons, List.flatMap_nil, List.append_nil] at spelled
          have stops := itemArgs_endsList (endsList_of_nextIs (by decide) isNext)
          exact reads_upTo_iff.mpr (.inl ⟨item, reads_offerItem itemFormed spelled stops, isNext, rfl⟩)
      | cons next others =>
          have some_later : (next :: others).flatMap OfferItem.partWords ≠ [] := by
            rw [List.flatMap_cons]
            exact List.append_ne_nil_of_left_ne_nil (partWords_ne_nil next) _
          rw [List.flatMap_cons, listWords_append (partWords_ne_nil item) some_later] at spelled
          obtain ⟨first, tail, rfl, spelledFirst, spelledTail⟩ := List.map_eq_append_iff.mp spelled
          obtain ⟨mark, later, rfl, isMark, spelledLater⟩ := map_word_eq_cons_iff.mp spelledTail
          have takesLater := ih (List.cons_ne_nil _ _) (fun other member =>
            formed other (List.mem_cons_of_mem _ member)) ending later rest spelledLater isNext
          rw [List.flatMap_cons] at spelledLater
          obtain ⟨token, more, rfl, starts⟩ := startsItem spelledLater
          have stops : itemArgs (mark :: token :: (more ++ rest)) = ([], token :: (more ++ rest)) :=
            itemArgs_startsItem (congrArg Word.kind isMark) starts
          have notNext : ¬ NextIs .rightParen (token :: more ++ rest) := by
            intro isParen
            have kind : token.kind = .rightParen := Option.some.inj isParen
            rcases starts with isNumber | ⟨isName, _⟩
            · rw [kind] at isNumber
              cases isNumber
            · rw [kind] at isName
              cases isName
          rw [List.append_assoc]
          exact reads_upTo_iff.mpr (.inr ⟨item, token :: more ++ rest, next :: others,
            reads_offerItem itemFormed spelledFirst stops, notNext, takesLater, rfl⟩)

theorem takes_offer {entry : Offer} (formed : entry.wellFormed = true) :
    Takes before Parser.offer entry.words entry := by
  simp only [Offer.wellFormed, Bool.and_eq_true, Bool.not_eq_true', List.isEmpty_eq_false_iff,
    List.all_eq_true] at formed
  have mode : Takes Anything (word .offerMode OfferMode.ofWord?) [.name entry.mode.word] entry.mode :=
    takes_word (ValueReader.OfferMode.ofWord?_word entry.mode).2
  exact mode.bind (takes_items formed.1 formed.2).beforeMark.afterMark.map

theorem takes_offers {entries : List Offer} (nonempty : entries ≠ [])
    (formed : ∀ entry ∈ entries, entry.wellFormed = true) :
    Takes before Parser.offers (.leftParen :: listWords (entries.map Offer.words) ++ [.rightParen]) entries := by
  have taken : List.Forall₂ (Takes Anything Parser.offer) (entries.map Offer.words) entries := by
    clear nonempty
    induction entries with
    | nil => exact .nil
    | cons entry rest ih =>
        exact .cons (takes_offer (formed entry List.mem_cons_self))
          (ih fun other member => formed other (List.mem_cons_of_mem _ member))
  have inner : Takes (NextIs .rightParen) (separated .comma Parser.offer) (listWords (entries.map Offer.words))
      entries := (takes_separated nonempty taken).mono fun _ => endsList_of_nextIs (by decide)
  exact inner.beforeMark.afterMark

/-- Every field that can be written down is read after its keyword. -/
theorem takes_field {field : Field} (formed : field.wellFormed = true)
    (finite : field.numbers.all Single.isFinite = true) :
    ∃ parser, field? field.keyword = some parser ∧ Takes EndsList parser field.valueWords field := by
  cases field with
  | comm value => exact ⟨_, rfl, (takes_comm finite).map⟩
  | failure value => exact ⟨_, rfl, (takes_message value).map⟩
  | reward value => exact ⟨_, rfl, (takes_message value).map⟩
  | objective value => exact ⟨_, rfl, (takes_objective value).map⟩
  | offers entries =>
      simp only [Field.wellFormed, Bool.and_eq_true, Bool.not_eq_true', List.isEmpty_eq_false_iff,
        List.all_eq_true] at formed
      exact ⟨_, rfl, (takes_offers formed.1 formed.2).map⟩
  | difficulty value => exact ⟨_, rfl, (takes_difficulty finite).map⟩
  | weight value => exact ⟨_, rfl, (takes_integer value).map⟩
  | zones list =>
      simp only [Field.wellFormed, Bool.and_eq_true, Bool.not_eq_true', List.isEmpty_eq_false_iff] at formed
      exact ⟨_, rfl, (takes_names formed.1).map⟩
  | offerGroup name => exact ⟨_, rfl, (takes_identifier name).map⟩
  | hostileGroup name => exact ⟨_, rfl, (takes_identifier name).map⟩

/-! ## Statements -/

theorem takes_condition {condition : Condition} (formed : condition.wellFormed = true)
    (tested : condition ≠ .otherwise) (first : Bool) :
    ∃ tests, condition.words first = .name (if first then "if" else "elif") :: tests ∧
      Takes Anything Parser.condition tests condition := by
  cases condition with
  | otherwise => exact absurd rfl tested
  | named name =>
      refine ⟨_, rfl, fun ending tokens rest spelled holds => ?_⟩
      have reads := takes_identifier name ending tokens rest spelled holds
      obtain ⟨token, tail, rfl, isName, _⟩ := map_word_eq_cons_iff.mp spelled
      refine reads_byFirst_iff.mpr (.inr ⟨fun found isFirst => ?_, reads_map_iff.mpr ⟨name, reads, rfl⟩⟩)
      obtain rfl : token = found := Option.some.inj isFirst
      have text : token.text = name := congrArg Word.text isName
      simp only [Condition.wellFormed, Bool.and_eq_true, bne_iff_ne] at formed
      simp [Token.isWord, text, formed.2]
  | group name =>
      refine ⟨_, rfl, fun ending tokens rest spelled holds => ?_⟩
      obtain ⟨token, tail, rfl, isGroup, spelledTail⟩ := map_word_eq_cons_iff.mp spelled
      have kind : token.kind = .identifier := congrArg Word.kind isGroup
      have text : token.text = "group" := congrArg Word.text isGroup
      have inner : Takes Anything (afterMark .leftParen (beforeMark .rightParen identifier))
          [.leftParen, .name name, .rightParen] name := (takes_identifier name).beforeMark.afterMark
      refine reads_byFirst_iff.mpr (.inl ⟨token, tail ++ rest, (), rfl, ?_, ?_⟩)
      · simp [Token.isWord, kind, text]
      · exact inner.map ending tail rest spelledTail holds

/-- A statement without others in it is read after its keyword. -/
theorem reads_leaf {topLevel : Bool} {head : Token} {keyword : String} {parser : Parser (Statement Pos)}
    {parsed : Statement Pos} (isKeyword : head.word = .name keyword) (known : leaf? head.pos keyword = some parser)
    (other : keyword ≠ "sub" ∧ keyword ≠ "group" ∧ keyword ≠ "if")
    (takes : Takes Anything parser words parsed) (spelled : tokens.map Token.word = words) :
    Reads (statement topLevel head) ending (tokens ++ rest) parsed rest := by
  have text : head.text = keyword := congrArg Word.text isKeyword
  obtain ⟨notSub, notGroup, notIf⟩ := other
  rw [← text] at known notSub notGroup notIf
  exact reads_statement_iff.mpr ⟨congrArg Word.kind isKeyword,
    .leaf notSub notGroup notIf known (takes _ _ _ spelled trivial)⟩

theorem leaf?_keyword (pos : Pos) (field : Field) : leaf? pos field.keyword =
    (field? field.keyword).map fun parser => beforeMark .semicolon (parser.map (.field pos)) := by
  cases field <;> rfl

theorem keyword_other (field : Field) :
    field.keyword ≠ "sub" ∧ field.keyword ≠ "group" ∧ field.keyword ≠ "if" := by
  cases field <;> simp only [Field.keyword] <;> decide

/-- The words that end a body. -/
def endWords : List String := ["end", "else", "elif"]

/-- A statement starts with a word that does not end a body. -/
theorem exists_keyword {statement : Statement Unit}
    (formed : ∀ inner ∈ statement.walk, inner.writable = true) :
    ∃ keyword later, statement.words = .name keyword :: later ∧ keyword ∉ endWords := by
  cases statement with
  | sub note name body => exact ⟨"sub", _, rfl, by decide⟩
  | group note declared => exact ⟨"group", _, rfl, by decide⟩
  | choice note blocks =>
      have blocksFormed : wellFormedBlocks blocks = true := formed _ List.mem_cons_self
      have several := two_le_length_of_wellFormedBlocks blocksFormed
      match blocks, several with
      | .mk condition body :: next :: rest, _ =>
          have tested : condition ≠ .otherwise :=
            tested_of_wellFormedBlocks blocksFormed (.mk condition body) List.mem_cons_self
          have conditionFormed : condition.wellFormed = true :=
            condition_wellFormed blocksFormed List.mem_cons_self
          obtain ⟨tests, same, _⟩ := takes_condition conditionFormed tested true
          refine ⟨"if", tests ++ bodyWords body ++ blockWords false (next :: rest) ++ [.name "end"], ?_, by decide⟩
          rw [Statement.words, blockWords, same]
          simp
  | call note name => exact ⟨"call", _, rfl, by decide⟩
  | unimplemented note => exact ⟨"err_unimplemented", _, rfl, by decide⟩
  | doc note name => exact ⟨"doc", _, rfl, by decide⟩
  | field note value =>
      refine ⟨value.keyword, _, rfl, ?_⟩
      cases value <;> simp only [Field.keyword] <;> decide

theorem complete_of_wellFormedBlocks {blocks : List (Block Unit)} {found : List (Block Pos)}
    (formed : wellFormedBlocks blocks = true) (same : eraseBlocks found = blocks) : Complete found := by
  have conditions := map_condition_eraseBlocks found
  rw [same] at conditions
  constructor
  · have several := two_le_length_of_wellFormedBlocks formed
    have lengths := congrArg List.length conditions
    rw [List.length_map, List.length_map] at lengths
    omega
  · intro name isNamed
    rw [← List.getLast?_map, ← conditions, List.getLast?_map] at isNamed
    exact last_of_wellFormedBlocks formed name isNamed

/-- The statement is read from tokens that spell it, if it can be written down. -/
def StatementRead (statement : Statement Unit) : Prop :=
  ∀ ending topLevel head tokens rest, (∀ inner ∈ statement.walk, inner.writable = true) →
    (∀ inner ∈ statement.walk.tail, inner.isDeclaration = false) →
    (statement.isDeclaration = true → topLevel = true) →
    (head :: tokens).map Token.word = statement.words →
      ∃ parsed, Reads (Parser.statement topLevel head) ending (tokens ++ rest) parsed rest ∧
        parsed.erase = statement

/-- The statements are read from tokens that spell them, up to a token that ends them. -/
def BodyRead (statements : List (Statement Unit)) : Prop :=
  ∀ ending ends stop tokens rest, Writable statements → Undeclaring statements →
    (∀ token, ends token = true → token.text ∈ endWords) → ends stop = true →
    tokens.map Token.word = bodyWords statements →
      ∃ parsed, Reads (body ends) ending (tokens ++ stop :: rest) (parsed, stop) rest ∧
        eraseBody parsed = statements

/-- The blocks of an `if` are read from tokens that spell them after the first condition. -/
def BlocksRead (blocks : List (Block Unit)) : Prop :=
  ∀ ending condition statements later tokens rest, blocks = .mk condition statements :: later →
    (∀ block ∈ blocks, block.condition.wellFormed = true) →
    (∀ block ∈ blocks.dropLast, block.condition ≠ .otherwise) →
    (∀ inner ∈ Statement.walkBlocks blocks, inner.writable = true) →
    (∀ inner ∈ Statement.walkBlocks blocks, inner.isDeclaration = false) →
    tokens.map Token.word = bodyWords statements ++ (blockWords false later ++ [.name "end"]) →
      ∃ found place, Reads (Parser.blocks condition) ending (tokens ++ rest) (found, place) rest ∧
        eraseBlocks found = blocks

theorem statementRead_sub {name : String} {statements : List (Statement Unit)} (ofBody : BodyRead statements) :
    StatementRead (.sub () name statements) := by
  intro ending topLevel head tokens rest writable inside placed spelled
  obtain ⟨isSub, spelledTail⟩ := List.cons.inj spelled
  obtain ⟨token, more, rfl, isName, spelledMore⟩ := map_word_eq_cons_iff.mp spelledTail
  obtain ⟨inner, last, rfl, spelledInner, spelledLast⟩ := List.map_eq_append_iff.mp spelledMore
  obtain ⟨stop, nothing, rfl, isEnd, isNil⟩ := map_word_eq_cons_iff.mp spelledLast
  cases List.map_eq_nil_iff.mp isNil
  have ends : endsSub stop = true := by
    have kind : stop.kind = .identifier := congrArg Word.kind isEnd
    have text : stop.text = "end" := congrArg Word.text isEnd
    simp [endsSub, Token.isWord, kind, text]
  have onlyEnd (token : Token) (isEnd : endsSub token = true) : token.text ∈ endWords := by
    simp only [endsSub, Token.isWord, Bool.and_eq_true, beq_iff_eq] at isEnd
    simp [endWords, isEnd.2]
  obtain ⟨parsed, reads, same⟩ := ofBody ending endsSub stop inner rest (List.forall_mem_cons.mp writable).2
    inside onlyEnd ends spelledInner
  have named : Reads identifier ending (token :: (inner ++ stop :: rest)) name (inner ++ stop :: rest) :=
    reads_identifier_iff.mpr ⟨token, rfl, congrArg Word.kind isName, congrArg Word.text isName⟩
  refine ⟨.sub head.pos name parsed, ?_, by rw [Statement.erase, same]⟩
  rw [List.cons_append, List.append_assoc]
  exact reads_statement_iff.mpr ⟨congrArg Word.kind isSub,
    .sub (congrArg Word.text isSub) (placed rfl) named reads⟩

theorem statementRead_group (declared : Group) : StatementRead (.group () declared) := by
  intro ending topLevel head tokens rest writable inside placed spelled
  obtain ⟨isGroup, spelledTail⟩ := List.cons.inj spelled
  have formed : declared.wellFormed = true := writable _ List.mem_cons_self
  simp only [Group.wellFormed, Bool.and_eq_true, Bool.not_eq_true', List.isEmpty_eq_false_iff] at formed
  have factions : Takes (NextIs .semicolon) names (listWords (nameParts declared.factions)) declared.factions :=
    (takes_names formed.1.2).mono fun _ => endsList_of_nextIs (by decide)
  have takes : Takes Anything groupDeclaration
      ([.name declared.name] ++ (listWords (nameParts declared.factions) ++ [.semicolon])) declared :=
    (takes_identifier declared.name).bind factions.beforeMark.map
  exact ⟨.group head.pos declared, reads_statement_iff.mpr ⟨congrArg Word.kind isGroup,
    .group (congrArg Word.text isGroup) (placed rfl) (takes _ _ _ spelledTail trivial)⟩, rfl⟩

theorem statementRead_choice {blocks : List (Block Unit)} (ofBlocks : BlocksRead blocks) :
    StatementRead (.choice () blocks) := by
  intro ending topLevel head tokens rest writable inside placed spelled
  have formed : wellFormedBlocks blocks = true := writable _ List.mem_cons_self
  have tested := tested_of_wellFormedBlocks formed
  match blocks with
  | [] => cases formed
  | [_] => cases formed
  | .mk condition body :: next :: others =>
      have conditionFormed : condition.wellFormed = true := condition_wellFormed formed List.mem_cons_self
      obtain ⟨tests, sameWords, takes⟩ :=
        takes_condition conditionFormed (tested (.mk condition body) List.mem_cons_self) true
      rw [Statement.words, blockWords, sameWords] at spelled
      simp only [List.cons_append, List.append_assoc] at spelled
      obtain ⟨isIf, spelledTail⟩ := List.cons.inj spelled
      obtain ⟨first, more, rfl, spelledTests, spelledMore⟩ := List.map_eq_append_iff.mp spelledTail
      obtain ⟨found, place, reads, same⟩ := ofBlocks ending condition body (next :: others) more rest rfl
        (fun block member => condition_wellFormed formed member) tested (List.forall_mem_cons.mp writable).2 inside
        spelledMore
      refine ⟨.choice head.pos found, ?_, by rw [Statement.erase, same]⟩
      rw [List.append_assoc]
      have readsTests := takes ending first (more ++ rest) spelledTests trivial
      exact reads_statement_iff.mpr ⟨congrArg Word.kind isIf, .choice (congrArg Word.text isIf) readsTests reads
        (complete_of_wellFormedBlocks formed same)⟩

theorem statementRead_call (name : String) : StatementRead (.call () name) := by
  intro ending topLevel head tokens rest _ _ _ spelled
  obtain ⟨isCall, spelledTail⟩ := List.cons.inj spelled
  have takes : Takes Anything (beforeMark .semicolon (identifier.map (Statement.call head.pos)))
      [.name name, .semicolon] (.call head.pos name) := (takes_identifier name).map.beforeMark
  exact ⟨.call head.pos name, reads_leaf isCall rfl (by decide) takes spelledTail, rfl⟩

theorem statementRead_unimplemented : StatementRead (.unimplemented ()) := by
  intro ending topLevel head tokens rest _ _ _ spelled
  obtain ⟨isMark, spelledTail⟩ := List.cons.inj spelled
  have takes : Takes Anything ((token .semicolon).map fun _ => Statement.unimplemented head.pos)
      [.semicolon] (.unimplemented head.pos) := by
    rintro ending tokens rest spelled _
    obtain ⟨token, nothing, rfl, isMark, isNil⟩ := map_word_eq_cons_iff.mp spelled
    cases List.map_eq_nil_iff.mp isNil
    exact reads_map_iff.mpr ⟨token, reads_token_iff.mpr ⟨rfl, .inl (congrArg Word.kind isMark)⟩, rfl⟩
  exact ⟨.unimplemented head.pos, reads_leaf isMark rfl (by decide) takes spelledTail, rfl⟩

theorem statementRead_doc (name : String) : StatementRead (.doc () name) := by
  intro ending topLevel head tokens rest _ _ _ spelled
  obtain ⟨isDoc, spelledTail⟩ := List.cons.inj spelled
  have takes : Takes Anything (beforeMark .semicolon (identifier.map (Statement.doc head.pos)))
      [.name name, .semicolon] (.doc head.pos name) := (takes_identifier name).map.beforeMark
  exact ⟨.doc head.pos name, reads_leaf isDoc rfl (by decide) takes spelledTail, rfl⟩

theorem statementRead_field (value : Field) : StatementRead (.field () value) := by
  intro ending topLevel head tokens rest writable _ _ spelled
  obtain ⟨isKeyword, spelledTail⟩ := List.cons.inj spelled
  have formed := writable _ List.mem_cons_self
  simp only [Statement.writable, Field.writable, Bool.and_eq_true] at formed
  obtain ⟨parser, known, takesValue⟩ := takes_field formed.1 formed.2
  have takes : Takes (NextIs .semicolon) (parser.map (Statement.field head.pos)) value.valueWords
      (.field head.pos value) := takesValue.map.mono fun _ => endsList_of_nextIs (by decide)
  have isLeaf : leaf? head.pos value.keyword = some (beforeMark .semicolon (parser.map (.field head.pos))) := by
    rw [leaf?_keyword, known]
    rfl
  exact ⟨.field head.pos value,
    reads_leaf isKeyword isLeaf (keyword_other value) takes.beforeMark spelledTail, rfl⟩

theorem bodyRead_nil : BodyRead [] := by
  intro ending ends stop tokens rest _ _ _ isEnd spelled
  cases List.map_eq_nil_iff.mp spelled
  exact ⟨[], reads_body_iff.mpr (.inl ⟨rfl, isEnd, rfl⟩), rfl⟩

theorem bodyRead_cons {statement : Statement Unit} {others : List (Statement Unit)}
    (ofStatement : StatementRead statement) (ofOthers : BodyRead others) : BodyRead (statement :: others) := by
  intro ending ends stop tokens rest writable undeclaring onlyEnd isEnd spelled
  obtain ⟨writableFirst, writableOthers⟩ := writable_cons_iff.mp writable
  obtain ⟨plainFirst, plainOthers⟩ := List.forall_mem_append.mp undeclaring
  obtain ⟨first, later, rfl, spelledFirst, spelledLater⟩ := List.map_eq_append_iff.mp spelled
  obtain ⟨keyword, more, sameWords, notEnd⟩ := exists_keyword writableFirst
  obtain ⟨head, tail, rfl, isKeyword, _⟩ := map_word_eq_cons_iff.mp (spelledFirst.trans sameWords)
  have isStatement : statement.isDeclaration = false :=
    plainFirst statement (by cases statement <;> exact List.mem_cons_self)
  obtain ⟨parsed, reads, same⟩ := ofStatement ending false head tail (later ++ stop :: rest) writableFirst
    (fun inner member => plainFirst inner (List.mem_of_mem_tail member))
    (fun isDeclaration => absurd isDeclaration (by simp [isStatement])) spelledFirst
  obtain ⟨parsedOthers, readsOthers, sameOthers⟩ :=
    ofOthers ending ends stop later rest writableOthers plainOthers onlyEnd isEnd spelledLater
  have goesOn : ends head = false := by
    cases ended : ends head with
    | false => rfl
    | true =>
        have text : head.text = keyword := congrArg Word.text isKeyword
        exact absurd (text ▸ onlyEnd head ended) notEnd
  refine ⟨parsed :: parsedOthers, ?_, by rw [eraseBody, same, sameOthers]⟩
  rw [List.append_assoc]
  exact reads_body_iff.mpr (.inr ⟨head, tail ++ (later ++ stop :: rest), parsed, later ++ stop :: rest,
    parsedOthers, rfl, goesOn, reads, readsOthers, rfl⟩)

theorem endsBlock_of_word {stop : Token} {text : String} (isStop : stop.word = .name text)
    (listed : text ∈ endWords) : endsBlock stop = true := by
  have kind : stop.kind = .identifier := congrArg Word.kind isStop
  have sameText : stop.text = text := congrArg Word.text isStop
  simp only [endWords, List.mem_cons, List.not_mem_nil, or_false] at listed
  rcases listed with rfl | rfl | rfl <;> simp [endsBlock, Token.isWord, kind, sameText]

theorem mem_endWords_of_endsBlock (token : Token) (isEnd : endsBlock token = true) : token.text ∈ endWords := by
  simp only [endsBlock, Token.isWord, Bool.or_eq_true, Bool.and_eq_true, beq_iff_eq] at isEnd
  rcases isEnd with (⟨_, text⟩ | ⟨_, text⟩) | ⟨_, text⟩ <;> simp [endWords, text]

/-- After a block, the word that ends it tells how the blocks go on. -/
theorem blocksRead_cons {condition : Condition} {statements : List (Statement Unit)} {later : List (Block Unit)}
    (ofBody : BodyRead statements) (ofLater : BlocksRead later) :
    BlocksRead (.mk condition statements :: later) := by
  rintro ending _ _ _ tokens rest ⟨⟩ formed tested writable undeclaring spelled
  obtain ⟨writableBody, writableLater⟩ := List.forall_mem_append.mp writable
  obtain ⟨plainBody, plainLater⟩ := List.forall_mem_append.mp undeclaring
  obtain ⟨inner, others, rfl, spelledInner, spelledOthers⟩ := List.map_eq_append_iff.mp spelled
  have bodyOf {stop : Token} {text : String} (isStop : stop.word = .name text) (listed : text ∈ endWords)
      (tail : List Token) := ofBody ending endsBlock stop inner tail writableBody plainBody
    mem_endWords_of_endsBlock (endsBlock_of_word isStop listed) spelledInner
  rw [List.append_assoc]
  match later with
  | [] =>
      obtain ⟨stop, nothing, rfl, isEnd, isNil⟩ := map_word_eq_cons_iff.mp spelledOthers
      cases List.map_eq_nil_iff.mp isNil
      obtain ⟨parsed, reads, same⟩ := bodyOf isEnd (by decide) rest
      refine ⟨[.mk condition parsed], stop.pos, ?_, by rw [eraseBlocks, same, eraseBlocks]⟩
      exact reads_blocks_iff.mpr ⟨parsed, stop, rest, [], reads, .finish (congrArg Word.text isEnd), rfl⟩
  | .mk next nextBody :: remaining =>
      have notLast : condition ≠ .otherwise := tested (.mk condition statements) List.mem_cons_self
      have nextFormed : next.wellFormed = true := formed (.mk next nextBody) (by simp)
      have readLater (tokens : List Token) (spelledTokens : tokens.map Token.word =
          bodyWords nextBody ++ (blockWords false remaining ++ [.name "end"])) :=
        ofLater ending next nextBody remaining tokens rest rfl
          (fun block member => formed block (List.mem_cons_of_mem _ member))
          (fun block member => tested block (List.mem_cons_of_mem _ member)) writableLater plainLater spelledTokens
      rw [blockWords] at spelledOthers
      by_cases isOtherwise : next = .otherwise
      · subst isOtherwise
        obtain ⟨stop, tail, rfl, isElse, spelledTail⟩ := map_word_eq_cons_iff.mp spelledOthers
        obtain ⟨parsed, reads, same⟩ := bodyOf isElse (by decide) (tail ++ rest)
        obtain ⟨found, place, readsLater, sameLater⟩ := readLater tail (by simpa using spelledTail)
        have text : stop.text = "else" := congrArg Word.text isElse
        refine ⟨.mk condition parsed :: found, place, ?_, by rw [eraseBlocks, same, sameLater]⟩
        exact reads_blocks_iff.mpr ⟨parsed, stop, tail ++ rest, found, reads,
          .otherwise (by rw [text]; decide) notLast text readsLater, rfl⟩
      · obtain ⟨tests, sameWords, takes⟩ := takes_condition nextFormed isOtherwise false
        rw [sameWords] at spelledOthers
        obtain ⟨stop, tail, rfl, isElif, spelledTail⟩ := map_word_eq_cons_iff.mp spelledOthers
        simp only [List.append_eq, List.append_assoc] at spelledTail
        obtain ⟨first, more, rfl, spelledTests, spelledMore⟩ := List.map_eq_append_iff.mp spelledTail
        obtain ⟨parsed, reads, same⟩ := bodyOf isElif (by decide) (first ++ (more ++ rest))
        obtain ⟨found, place, readsLater, sameLater⟩ := readLater more spelledMore
        have text : stop.text = "elif" := congrArg Word.text isElif
        have readsTests := takes ending first (more ++ rest) spelledTests trivial
        refine ⟨.mk condition parsed :: found, place, ?_, by rw [eraseBlocks, same, sameLater]⟩
        rw [List.cons_append, List.append_assoc]
        exact reads_blocks_iff.mpr ⟨parsed, stop, first ++ (more ++ rest), found, reads,
          .next (by rw [text]; decide) notLast (by rw [text]; decide) readsTests readsLater, rfl⟩

mutual

theorem statementRead (statement : Statement Unit) : StatementRead statement :=
  match statement with
  | .sub () _ statements => statementRead_sub (bodyRead statements)
  | .group () declared => statementRead_group declared
  | .choice () blocks => statementRead_choice (blocksRead blocks)
  | .call () name => statementRead_call name
  | .unimplemented () => statementRead_unimplemented
  | .doc () name => statementRead_doc name
  | .field () value => statementRead_field value

theorem bodyRead (statements : List (Statement Unit)) : BodyRead statements :=
  match statements with
  | [] => bodyRead_nil
  | statement :: others => bodyRead_cons (statementRead statement) (bodyRead others)

theorem blocksRead (blocks : List (Block Unit)) : BlocksRead blocks :=
  match blocks with
  | [] => nofun
  | .mk _ statements :: later => blocksRead_cons (bodyRead statements) (blocksRead later)

end

/-- A whole script is read from tokens that spell it. -/
theorem script_written {script : List (Statement Unit)} {tokens : List Token} {stop : Pos}
    (writable : Writable script) (flat : Flat script) (spelled : tokens.map Token.word = bodyWords script) :
    ∃ program, Parser.script (.endOfFile stop) tokens = .ok program ∧ eraseBody program = script := by
  induction script generalizing tokens with
  | nil =>
      cases List.map_eq_nil_iff.mp spelled
      exact ⟨[], script_eq_ok_iff.mpr (.inl ⟨rfl, rfl, stop, rfl⟩), rfl⟩
  | cons statement others ih =>
      obtain ⟨writableFirst, writableOthers⟩ := writable_cons_iff.mp writable
      obtain ⟨first, later, rfl, spelledFirst, spelledLater⟩ := List.map_eq_append_iff.mp spelled
      obtain ⟨keyword, more, sameWords, _⟩ := exists_keyword writableFirst
      obtain ⟨head, tail, rfl, _, _⟩ := map_word_eq_cons_iff.mp (spelledFirst.trans sameWords)
      obtain ⟨parsed, reads, same⟩ := statementRead statement (.endOfFile stop) true head tail later writableFirst
        (flat statement List.mem_cons_self) (fun _ => rfl) spelledFirst
      obtain ⟨program, success, sameOthers⟩ :=
        ih writableOthers (fun other member => flat other (List.mem_cons_of_mem _ member)) spelledLater
      exact ⟨parsed :: program, script_eq_ok_iff.mpr (.inr ⟨head, tail ++ later, parsed, later, program,
        rfl, reads, success, rfl⟩), by rw [eraseBody, same, sameOthers]⟩

end Parser

/-- A script that can be written down is read from every text that spells it. -/
theorem exists_parse {text : String} {script : List (Statement Unit)} (writable : Writable script)
    (flat : Flat script) (scans : Scans text.toList (bodyWords script)) :
    ∃ program, parse text = .ok program ∧ eraseBody program = script := by
  obtain ⟨tokens, stop, listed, spelled⟩ := scans .start
  obtain ⟨program, success, same⟩ := Parser.script_written writable flat spelled
  refine ⟨program, ?_, same⟩
  rw [parse, TokenList.ofText, Cursor.ofText, listed]
  exact success

end MissionGraph.Script
