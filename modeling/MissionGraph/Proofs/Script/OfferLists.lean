import Mathlib
import MissionGraph.Proofs.Script.Acceptance

/-!
# The items of an offer and the commas between them

In a text that is read, the lists behind `append` and `replace` are those of the offers that are read, one by
one. The items of a list stand with one comma between them or with none; with one everywhere exactly if each
number and each plurality of the list, but the first token, comes right behind a comma.
-/

namespace MissionGraph

open Mission (Comm Field Message Offer OfferItem OfferMode)
open Script.Derivation
open Script.Parser (StartsItem isArgument_iff isMarker_iff isMode_iff isWord_eq_true_iff pluralityMarker?)

namespace Script

/-! ## One list -/

/-- Offer items with one comma between each two of them, and perhaps one after the last. -/
inductive Separated : List Token → List OfferItem → Prop where
  | last {tokens mark : List Token} {item : OfferItem} (isItem : IsItem .anyCase tokens item)
      (isMark : MaybeComma mark) : Separated (tokens ++ mark) [item]
  | next {tokens rest : List Token} {comma : Token} {item : OfferItem} {others : List OfferItem}
      (isItem : IsItem .anyCase tokens item) (isComma : comma.kind = .comma) (later : Separated rest others) :
      Separated (tokens ++ comma :: rest) (item :: others)

/-- A number or a plurality stands behind a comma. -/
def BehindComma (before token : Token) : Prop :=
  StartsItem token → before.kind = .comma

instance (token : Token) : Decidable (StartsItem token) :=
  inferInstanceAs (Decidable (_ ∨ _))

instance : DecidableRel BehindComma := fun _ _ =>
  inferInstanceAs (Decidable (_ → _))

section Items

variable {tokens rest : List Token} {first comma : Token} {item : OfferItem} {items : List OfferItem}

theorem behindComma_comma (before : Token) (isComma : comma.kind = .comma) : BehindComma before comma := by
  rintro (isNumber | ⟨isName, _⟩)
  · cases isComma.symm.trans isNumber
  · cases isComma.symm.trans isName

theorem isChain_comma (isComma : comma.kind = .comma) (chain : rest.IsChain BehindComma) :
    (comma :: rest).IsChain BehindComma :=
  List.isChain_cons.mpr ⟨fun _ _ _ => isComma, chain⟩

theorem isChain_arguments {args : List String} (areArgs : More (IsArgument .anyCase) rest args) (first : Token) :
    (first :: rest).IsChain BehindComma := by
  induction areArgs generalizing first with
  | nil => exact .singleton first
  | cons isComma isArgument _ ih =>
      obtain ⟨name, rfl, _⟩ := isArgument_iff.mp isArgument
      exact .cons_cons (behindComma_comma first isComma) (.cons_cons (fun _ => isComma) (ih name))

theorem isChain_message {message : Message} (isMessage : IsMessage (IsArgument .anyCase) tokens message) :
    tokens.IsChain BehindComma := by
  obtain ⟨_, areArgs⟩ := isMessage
  exact isChain_arguments areArgs _

theorem isChain_item (isItem : IsItem .anyCase tokens item) : tokens.IsChain BehindComma := by
  cases isItem with
  | plain isMessage => exact isChain_message isMessage
  | marked _ _ isComma isMessage =>
      exact .cons_cons (behindComma_comma _ isComma) (isChain_comma isComma (isChain_message isMessage))

theorem getLast?_arguments {args : List String} (areArgs : More (IsArgument .anyCase) rest args)
    (notComma : first.kind ≠ .comma) : ∃ last, (first :: rest).getLast? = some last ∧ last.kind ≠ .comma := by
  induction areArgs generalizing first with
  | nil => exact ⟨first, rfl, notComma⟩
  | cons _ isArgument _ ih =>
      obtain ⟨name, rfl, isName, _⟩ := isArgument_iff.mp isArgument
      rw [List.getLast?_cons_cons, List.singleton_append, List.getLast?_cons_cons]
      exact ih (by rw [isName]; exact TokenKind.noConfusion)

/-- An item does not end with a comma. -/
theorem getLast?_item (isItem : IsItem .anyCase tokens item) :
    ∃ last, tokens.getLast? = some last ∧ last.kind ≠ .comma := by
  cases isItem with
  | plain isMessage =>
      obtain ⟨⟨isInteger, _⟩, areArgs⟩ := isMessage
      exact getLast?_arguments areArgs (by rw [isInteger]; exact TokenKind.noConfusion)
  | marked _ _ _ isMessage =>
      obtain ⟨⟨isInteger, _⟩, areArgs⟩ := isMessage
      rw [List.getLast?_cons_cons, List.getLast?_cons_cons]
      exact getLast?_arguments areArgs (by rw [isInteger]; exact TokenKind.noConfusion)

/-- The first token of an item is a number or a plurality. -/
theorem head?_item (isItem : IsItem .anyCase tokens item) : ∃ head, tokens.head? = some head ∧ StartsItem head := by
  cases isItem with
  | plain isMessage =>
      obtain ⟨⟨isInteger, _⟩, _⟩ := isMessage
      exact ⟨_, rfl, .inl isInteger⟩
  | @marked marker _ _ _ _ isMarker isMarked _ _ =>
      have picked := isMarker_iff.mp ⟨isMarker, isMarked⟩
      obtain ⟨isName, _⟩ := isMarker
      rw [pluralityMarker?, if_pos isName] at picked
      exact ⟨marker, rfl, .inr ⟨isName, Option.isSome_of_eq_some picked⟩⟩

theorem head?_items (areItems : AreItems .anyCase tokens items) :
    ∃ head, tokens.head? = some head ∧ StartsItem head := by
  cases areItems with
  | last isItem _ =>
      obtain ⟨head, isHead, starts⟩ := head?_item isItem
      exact ⟨head, by rw [List.head?_append, isHead]; rfl, starts⟩
  | next isItem _ _ =>
      obtain ⟨head, isHead, starts⟩ := head?_item isItem
      exact ⟨head, by rw [List.append_assoc, List.head?_append, isHead]; rfl, starts⟩

theorem Separated.isChain (separated : Separated tokens items) : tokens.IsChain BehindComma := by
  induction separated with
  | last isItem isMark =>
      cases isMark with
      | absent => simpa using isChain_item isItem
      | @present comma isComma =>
          refine (isChain_item isItem).append (.singleton comma) ?_
          rintro before _ _ ⟨⟩
          exact behindComma_comma before isComma
  | next isItem isComma _ ih =>
      refine (isChain_item isItem).append (isChain_comma isComma ih) ?_
      rintro before _ _ ⟨⟩
      exact behindComma_comma before isComma

/-- The items of a list have one comma between each two exactly if all numbers and pluralities but the first token
are behind commas. -/
theorem separated_iff (areItems : AreItems .anyCase tokens items) :
    Separated tokens items ↔ tokens.IsChain BehindComma := by
  refine ⟨Separated.isChain, fun chain => ?_⟩
  induction areItems with
  | last isItem isMark => exact .last isItem isMark
  | @next tokens mark rest item others isItem isMark later ih =>
      have separated := ih chain.right_of_append
      cases isMark with
      | @present comma isComma =>
          rw [List.append_assoc, List.singleton_append]
          exact .next isItem isComma separated
      | absent =>
          -- the first token of the next item is right behind this one, which does not end with a comma
          rw [List.append_nil] at chain
          obtain ⟨last, isLast, notComma⟩ := getLast?_item isItem
          obtain ⟨head, isHead, starts⟩ := head?_items later
          exact absurd ((List.isChain_append.mp chain).2.2 last isLast head isHead starts) notComma

end Items

/-! ## The lists of a text -/

/-- The two tokens open a list of offer items: `append` or `replace` in any letter case, and a parenthesis. -/
def opensList (mode left : Token) : Bool :=
  mode.kind == .identifier && (OfferMode.ofWord? mode.text).isSome && left.kind == .leftParen

/-- The lists of offer items among the tokens, in the order of the text: what stands between the parentheses. -/
def offerLists : List Token → List (List Token)
  | mode :: left :: rest =>
      if opensList mode left then rest.takeWhile (·.kind != .rightParen) :: offerLists rest
      else offerLists (left :: rest)
  | _ => []

/-- The offers that a statement says by itself. -/
def Statement.ownOffers : Statement Pos → List Offer
  | .field _ (.offers entries) => entries
  | _ => []

/-- All offers of a script, in the order of the text. -/
def scriptOffers (program : Program) : List Offer :=
  (Statement.walkBody program).flatMap Statement.ownOffers

/-- The tokens do not go on with an opening parenthesis. -/
def Unopened (tokens : List Token) : Prop :=
  ∀ head ∈ tokens.head?, head.kind ≠ .leftParen

/-- The lists among the tokens are those of the offers, whatever follows. -/
structure Shows (tokens : List Token) (shown : List Offer) : Prop where
  unopened : Unopened tokens
  lists : ∀ tail, Unopened tail → ∃ found, offerLists (tokens ++ tail) = found ++ offerLists tail ∧
    List.Forall₂ (fun list offer => AreItems .anyCase list offer.items) found shown

section Lists

variable {tokens rest first second : List Token} {token : Token} {shown others : List Offer}

theorem opensList_eq_true_iff {mode left : Token} :
    opensList mode left = true ↔
      (∃ value, IsWord .anyCase OfferMode.word mode value) ∧ left.kind = .leftParen := by
  simp only [opensList, Bool.and_eq_true, beq_iff_eq, Option.isSome_iff_exists, isMode_iff, exists_and_left]

theorem offerLists_cons (token : Token) (unopened : Unopened rest) : offerLists (token :: rest) = offerLists rest := by
  cases rest with
  | nil => rfl
  | cons next rest =>
      rw [offerLists, if_neg]
      exact fun opens => unopened next rfl (opensList_eq_true_iff.mp opens).2

theorem Shows.nil : Shows [] [] where
  unopened := fun _ isHead => by cases isHead
  lists := fun _ _ => ⟨[], rfl, .nil⟩

theorem unopened_append (unopened : Unopened first) (unopenedRest : Unopened rest) : Unopened (first ++ rest) := by
  cases first with
  | nil => exact unopenedRest
  | cons head tail => exact unopened

theorem Shows.append (shows : Shows first shown) (later : Shows second others) :
    Shows (first ++ second) (shown ++ others) where
  unopened := unopened_append shows.unopened later.unopened
  lists := by
    intro tail unopened
    obtain ⟨found, split, fit⟩ := shows.lists (second ++ tail) (unopened_append later.unopened unopened)
    obtain ⟨more, splitMore, fitMore⟩ := later.lists tail unopened
    refine ⟨found ++ more, ?_, List.rel_append fit fitMore⟩
    rw [List.append_assoc, split, splitMore, List.append_assoc]

/-- A token other than an opening parenthesis. -/
theorem Shows.single (other : token.kind ≠ .leftParen) : Shows [token] [] where
  unopened := by
    rintro _ ⟨⟩
    exact other
  lists := fun _ unopened => ⟨[], offerLists_cons token unopened, .nil⟩

theorem Shows.plain (others : ∀ token ∈ tokens, token.kind ≠ .leftParen) : Shows tokens [] := by
  induction tokens with
  | nil => exact .nil
  | cons token rest ih =>
      obtain ⟨other, later⟩ := List.forall_mem_cons.mp others
      exact (Shows.single other).append (ih later)

/-- What stands behind a word other than `append` and `replace` opens no list. -/
theorem Shows.behindWord {word : String} (isWord : token.isWord word = true)
    (otherWord : (OfferMode.ofWord? word).isSome = false) (left : Token) : Shows [token, left] [] where
  unopened := by
    rintro _ ⟨⟩
    rw [(isWord_eq_true_iff.mp isWord).1]
    exact TokenKind.noConfusion
  lists := by
    intro tail unopened
    refine ⟨[], ?_, .nil⟩
    have closed : ¬ opensList token left = true := by
      simp [opensList, (isWord_eq_true_iff.mp isWord).2, otherWord]
    show offerLists (token :: left :: tail) = offerLists tail
    rw [offerLists, if_neg closed, offerLists_cons left unopened]

end Lists

/-! ## Tokens without parentheses -/

/-- The token is no parenthesis. -/
def Token.IsBare (token : Token) : Prop :=
  token.kind ≠ .leftParen ∧ token.kind ≠ .rightParen

section Bare

variable {tokens : List Token} {token : Token}

theorem isBare_of_kind {kind : TokenKind} (isKind : token.kind = kind)
    (other : kind ≠ .leftParen ∧ kind ≠ .rightParen) : token.IsBare := by
  rw [Token.IsBare, isKind]
  exact other

theorem isBare_name {name : String} (isName : IsName tokens name) : ∀ token ∈ tokens, token.IsBare := by
  obtain ⟨isIdentifier⟩ := isName
  exact List.forall_mem_singleton.mpr (isBare_of_kind isIdentifier (by decide))

theorem isBare_number {value : Number.Single} (isNumber : IsNumber token value) : token.IsBare := by
  cases isNumber with
  | whole isInteger => exact isBare_of_kind isInteger (by decide)
  | fraction isFloat _ _ => exact isBare_of_kind isFloat (by decide)

theorem isBare_more {α : Type} {form : List Token → α → Prop} {values : List α}
    (inner : ∀ tokens value, form tokens value → ∀ token ∈ tokens, token.IsBare) (more : More form tokens values) :
    ∀ token ∈ tokens, token.IsBare := by
  induction more with
  | nil => exact fun _ member => absurd member List.not_mem_nil
  | cons isComma isMember _ ih =>
      refine List.forall_mem_cons.mpr ⟨isBare_of_kind isComma (by decide), ?_⟩
      exact List.forall_mem_append.mpr ⟨inner _ _ isMember, ih⟩

theorem isBare_names {names : List String} (areNames : Several IsName tokens names) :
    ∀ token ∈ tokens, token.IsBare := by
  obtain ⟨isName, more⟩ := areNames
  exact List.forall_mem_append.mpr ⟨isBare_name isName, isBare_more (fun _ _ => isBare_name) more⟩

theorem isBare_message {argument : List Token → String → Prop} {message : Message}
    (inner : ∀ tokens value, argument tokens value → IsName tokens value)
    (isMessage : IsMessage argument tokens message) : ∀ token ∈ tokens, token.IsBare := by
  obtain ⟨⟨isInteger, _⟩, areArgs⟩ := isMessage
  refine List.forall_mem_cons.mpr ⟨isBare_of_kind isInteger (by decide), ?_⟩
  exact isBare_more (fun tokens value isArgument => isBare_name (inner tokens value isArgument)) areArgs

theorem isBare_item {item : OfferItem} (isItem : IsItem .anyCase tokens item) : ∀ token ∈ tokens, token.IsBare := by
  cases isItem with
  | plain isMessage => exact isBare_message (fun _ _ => And.left) isMessage
  | marked isMarker _ isComma isMessage =>
      obtain ⟨isName, _⟩ := isMarker
      refine List.forall_mem_cons.mpr ⟨isBare_of_kind isName (by decide), ?_⟩
      exact List.forall_mem_cons.mpr
        ⟨isBare_of_kind isComma (by decide), isBare_message (fun _ _ => And.left) isMessage⟩

theorem isBare_maybeComma (isMark : MaybeComma tokens) : ∀ token ∈ tokens, token.IsBare := by
  cases isMark with
  | absent => exact fun _ member => absurd member List.not_mem_nil
  | present isComma => exact List.forall_mem_singleton.mpr (isBare_of_kind isComma (by decide))

theorem isBare_items {items : List OfferItem} (areItems : AreItems .anyCase tokens items) :
    ∀ token ∈ tokens, token.IsBare := by
  induction areItems with
  | last isItem isMark => exact List.forall_mem_append.mpr ⟨isBare_item isItem, isBare_maybeComma isMark⟩
  | next isItem isMark _ ih =>
      exact List.forall_mem_append.mpr
        ⟨List.forall_mem_append.mpr ⟨isBare_item isItem, isBare_maybeComma isMark⟩, ih⟩

theorem isBare_comm {comm : Comm} (isComm : IsComm tokens comm) : ∀ token ∈ tokens, token.IsBare := by
  obtain ⟨isEvent, ⟨isHearer, _⟩, isFirst, isSecond, isThird, ⟨isSpeaker, _⟩, isSaid, areCommas⟩ := isComm
  have commas := fun mark member => isBare_of_kind (areCommas mark member) (by decide)
  simp only [List.forall_mem_cons] at commas ⊢
  obtain ⟨one, two, three, four, five, six, _⟩ := commas
  exact ⟨isBare_of_kind isEvent (by decide), one, isBare_of_kind isHearer (by decide), two, isBare_number isFirst,
    three, isBare_number isSecond, four, isBare_number isThird, five, isBare_of_kind isSpeaker (by decide), six,
    isBare_of_kind isSaid (by decide), fun _ member => absurd member List.not_mem_nil⟩

end Bare

/-! ## The lists of statements -/

section Statements

variable {tokens : List Token} {head : Token}

theorem Shows.bare (bare : ∀ token ∈ tokens, token.IsBare) : Shows tokens [] :=
  .plain fun token member => (bare token member).1

theorem Shows.word {word : String} (isWord : head.isWord word = true) : Shows [head] [] :=
  .single fun isLeft => by cases (isWord_eq_true_iff.mp isWord).1.symm.trans isLeft

theorem shows_offer {offer : Offer} (isOffer : IsOffer .anyCase tokens offer) : Shows tokens [offer] := by
  obtain @⟨mode, left, right, list, value, items, isMode, isLeft, areItems, isRight⟩ := isOffer
  have bare := isBare_items areItems
  have later : Shows (list ++ [right]) [] :=
    (Shows.bare bare).append (.single (by rw [isRight]; exact TokenKind.noConfusion))
  refine ⟨?_, fun tail unopened => ?_⟩
  · rintro _ ⟨⟩
    obtain ⟨isName, _⟩ := isMode
    rw [isName]
    exact TokenKind.noConfusion
  · obtain ⟨found, split, fit⟩ := later.lists tail unopened
    cases fit
    have within : ∀ token ∈ list, (token.kind != .rightParen) = true := fun token member =>
      bne_iff_ne.mpr (bare token member).2
    refine ⟨[list], ?_, .cons areItems .nil⟩
    show offerLists (mode :: left :: (list ++ [right] ++ tail)) = list :: offerLists tail
    rw [offerLists, if_pos (opensList_eq_true_iff.mpr ⟨⟨value, isMode⟩, isLeft⟩), split, List.append_assoc,
      List.takeWhile_append_of_pos within, List.singleton_append, List.takeWhile_cons_of_neg (by simp [isRight]),
      List.append_nil]
    rfl

theorem shows_moreOffers {entries : List Offer} (more : More (IsOffer .anyCase) tokens entries) :
    Shows tokens entries := by
  induction more with
  | nil => exact .nil
  | @cons comma _ _ value others isComma isOffer _ ih =>
      have marked : Shows [comma] [] := .single (by rw [isComma]; exact TokenKind.noConfusion)
      exact marked.append ((shows_offer isOffer).append ih)

theorem shows_field {keyword : String} {value : Field} (pos : Pos) (isKeyword : head.isWord keyword = true)
    (isField : IsField .anyCase keyword tokens value) :
    Shows (head :: tokens) (Statement.ownOffers (.field pos value)) := by
  have start := Shows.word isKeyword
  cases isField with
  | offers areOffers =>
      obtain @⟨left, right, list, entries, _, ⟨isOffer, more⟩, isRight⟩ := areOffers
      have opening : Shows [head, left] [] := .behindWord isKeyword (by decide +kernel) left
      have closing : Shows [right] [] := .single (by rw [isRight]; exact TokenKind.noConfusion)
      have whole := opening.append (((shows_offer isOffer).append (shows_moreOffers more)).append closing)
      simpa [Statement.ownOffers] using whole
  | comm isComm => exact start.append (.bare (isBare_comm isComm))
  | failure isMessage => exact start.append (.bare (isBare_message (fun _ _ isName => isName) isMessage))
  | reward isMessage => exact start.append (.bare (isBare_message (fun _ _ isName => isName) isMessage))
  | objective isObjective =>
      obtain ⟨isTarget, isComma, isMessage⟩ := isObjective
      refine start.append (.bare (List.forall_mem_cons.mpr ⟨isBare_of_kind isTarget (by decide), ?_⟩))
      exact List.forall_mem_cons.mpr
        ⟨isBare_of_kind isComma (by decide), isBare_message (fun _ _ isName => isName) isMessage⟩
  | difficulty isDifficulty =>
      obtain ⟨isLower, isComma, isUpper⟩ := isDifficulty
      refine start.append (.bare (List.forall_mem_cons.mpr ⟨isBare_number isLower, ?_⟩))
      exact List.forall_mem_cons.mpr
        ⟨isBare_of_kind isComma (by decide), List.forall_mem_singleton.mpr (isBare_number isUpper)⟩
  | weight isInteger =>
      obtain ⟨isInteger, _⟩ := isInteger
      exact start.append (.bare (List.forall_mem_singleton.mpr (isBare_of_kind isInteger (by decide))))
  | zones areNames => exact start.append (.bare (isBare_names areNames))
  | offerGroup isName => exact start.append (.bare (isBare_name isName))
  | hostileGroup isName => exact start.append (.bare (isBare_name isName))

theorem shows_condition {condition : Condition} (isCondition : IsCondition tokens condition) : Shows tokens [] := by
  cases isCondition with
  | @group word left name right isWord _ isName isRight =>
      have inner : Shows [name, right] [] :=
        .plain (by simp [isName, isRight])
      exact (Shows.behindWord isWord (by decide +kernel) left).append inner
  | named isName _ => exact .single (by rw [isName]; exact TokenKind.noConfusion)

theorem shows_derives {phrase : Phrase} (derives : Derives .anyCase tokens phrase) :
    Shows tokens (phrase.inside.flatMap Statement.ownOffers) := by
  induction derives with
  | call isCall isName isStop =>
      exact (Shows.word isCall).append (.plain (by simp [isName, isStop]))
  | unimplemented isUnimplemented isStop =>
      exact (Shows.word isUnimplemented).append (.plain (by simp [isStop]))
  | doc isDoc isName isStop =>
      exact (Shows.word isDoc).append (.plain (by simp [isName, isStop]))
  | @field head stop keyword tokens value isKeyword isField isStop =>
      have ending : Shows [stop] [] := .single (by rw [isStop]; exact TokenKind.noConfusion)
      have whole := (shows_field head.pos isKeyword isField).append ending
      simpa [Phrase.inside, Statement.walk] using whole
  | choice isIf _ _ isEnd ih =>
      have whole := (Shows.word isIf).append (ih.append (.word isEnd))
      simpa [Phrase.inside, Statement.walk, Statement.ownOffers] using whole
  | nothing => exact .nil
  | next _ _ ihStatement ihOthers =>
      simpa [Phrase.inside, Statement.walkBody] using ihStatement.append ihOthers
  | lastBlock isCondition _ ih =>
      simpa [Phrase.inside, Statement.walkBlocks] using (shows_condition isCondition).append ih
  | elseBlock isCondition _ isElse _ ihBody ihLast =>
      have whole := (shows_condition isCondition).append (ihBody.append ((Shows.word isElse).append ihLast))
      simpa [Phrase.inside, Statement.walkBlocks] using whole
  | elifBlock isCondition _ isElif _ ihBody ihLater =>
      have whole := (shows_condition isCondition).append (ihBody.append ((Shows.word isElif).append ihLater))
      simpa [Phrase.inside, Statement.walkBlocks] using whole

theorem shows_script {program : Program} (isScript : IsScript .anyCase tokens program) :
    Shows tokens (scriptOffers program) := by
  induction isScript with
  | nil => exact .nil
  | @cons first rest statement others outermost _ ih =>
      have shown : Shows first (statement.walk.flatMap Statement.ownOffers) := by
        cases outermost with
        | @sub head name stop tokens statements isSub isName inner isEnd =>
            have named : Shows [head, name] [] := (Shows.word isSub).append (.plain (by simp [isName]))
            have whole := named.append ((shows_derives inner).append (.word isEnd))
            simpa [Phrase.inside, Statement.walk, Statement.ownOffers] using whole
        | @group head name stop tokens factions isGroup isName areNames isStop =>
            have named : Shows [head, name] [] := (Shows.word isGroup).append (.plain (by simp [isName]))
            have ending : Shows [stop] [] := .single (by rw [isStop]; exact TokenKind.noConfusion)
            exact named.append ((Shows.bare (isBare_names areNames)).append ending)
        | statement derives => exact shows_derives derives
      simpa [scriptOffers, Statement.walkBody] using shown.append ih

end Statements

/-- In a text that is read, the lists behind `append` and `replace` are those of the offers, in their order. The items
of a list have one comma between each two of them exactly if each number and each plurality but the first token of
the list is right behind a comma; otherwise some have none. -/
theorem separated_iff_of_parse {text : String} {program : Program} (parsed : parse text = .ok program) :
    List.Forall₂ (fun list offer => AreItems .anyCase list offer.items ∧
        (Separated list offer.items ↔ list.IsChain BehindComma))
      (offerLists (TokenList.ofText text).tokens) (scriptOffers program) := by
  have isScript := ((Parser.script_eq_ok_iff_isScript (lexed_of_mem_tokenList _)).mp parsed).2
  obtain ⟨found, split, fit⟩ := (shows_script isScript).lists [] fun _ isHead => by cases isHead
  rw [List.append_nil] at split
  rw [show offerLists (TokenList.ofText text).tokens = found from split.trans (List.append_nil found)]
  exact fit.imp fun list offer areItems => ⟨areItems, separated_iff areItems⟩

/-- Two lists of two items: the plurality of the first list stands behind a comma, the last number of the second
does not. -/
def twoLists : String :=
  "offer_text (append(1, a, plural, 2,), replace(3 4));"

/-- The items of the first list have a comma between them, those of the second have none. -/
theorem separated_iff_of_parse_twoLists : ∃ program first second,
    parse twoLists = .ok program ∧ offerLists (TokenList.ofText twoLists).tokens = [first, second] ∧
      scriptOffers program =
        [⟨.append, [⟨.none, 1, ["a"]⟩, ⟨.plural, 2, []⟩]⟩, ⟨.replace, [⟨.none, 3, []⟩, ⟨.none, 4, []⟩]⟩] ∧
      Separated first [⟨.none, 1, ["a"]⟩, ⟨.plural, 2, []⟩] ∧
      ¬ Separated second [⟨.none, 3, []⟩, ⟨.none, 4, []⟩] := by
  have evaluated : (do
      let program ← (parse twoLists).toOption
      return scriptOffers program) =
      some [⟨.append, [⟨.none, 1, ["a"]⟩, ⟨.plural, 2, []⟩]⟩, ⟨.replace, [⟨.none, 3, []⟩, ⟨.none, 4, []⟩]⟩] := by
    cbv
  have chained : (offerLists (TokenList.ofText twoLists).tokens).map
      (fun list => decide (list.IsChain BehindComma)) = [true, false] := by
    decide +kernel
  obtain ⟨program, parsed, evaluated⟩ := Success.exists_of_toOption_bind evaluated
  have read := Option.some.inj evaluated
  have fit := separated_iff_of_parse parsed
  rw [read] at fit
  generalize offerLists (TokenList.ofText twoLists).tokens = lists at fit chained
  cases fit with
  | @cons first _ _ _ one later =>
      cases later with
      | @cons second _ _ _ two last =>
          cases last
          injection chained with firstChain later
          injection later with secondChain
          exact ⟨program, first, second, parsed, rfl, read, one.2.mpr (of_decide_eq_true firstChain),
            fun separated => of_decide_eq_false secondChain (two.2.mp separated)⟩

/-- Two numbers without a comma between them are read as two items. -/
theorem not_separated_of_parse :
    ¬ ∀ text program, parse text = .ok program →
      ∀ list ∈ offerLists (TokenList.ofText text).tokens, ∃ items, Separated list items := by
  have evaluated : (parse "offer_text (append(1 2));").toOption.isSome = true := by
    cbv
  have listed : offerLists (TokenList.ofText "offer_text (append(1 2));").tokens =
      [[⟨.integer, "1", ⟨1, 20⟩⟩, ⟨.integer, "2", ⟨1, 22⟩⟩]] := by
    decide +kernel
  intro separate
  obtain ⟨program, parsed⟩ := Success.exists_of_isSome evaluated
  obtain ⟨items, separated⟩ := separate _ program parsed _ (by rw [listed]; exact List.mem_singleton_self _)
  exact absurd separated.isChain (by decide)

end Script

end MissionGraph
