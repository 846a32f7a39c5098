import MissionGraph.Proofs.Success
import MissionGraph.Script.Parser

/-!
# When a parser succeeds

For every way of composing parsers, from which tokens the composed parser reads a value, and which
tokens it leaves.
-/

namespace MissionGraph.Script.Parser

variable {α β : Type} {ending : Ending} {tokens rest : List Token}

/-- The parser reads a value from the front of a token list and leaves the rest. -/
def Reads (parser : Parser α) (ending : Ending) (tokens : List Token) (value : α) (rest : List Token) :
    Prop :=
  ∃ shorter, parser ending tokens = .ok ⟨value, rest, shorter⟩

theorem Reads.shorter {parser : Parser α} {value : α} (reads : Reads parser ending tokens value rest) :
    rest.length < tokens.length :=
  reads.1

/-- The token is of the class, or an integer where a number is asked for. -/
def Fits (kind : TokenKind) (token : Token) : Prop :=
  token.kind = kind ∨ (kind = .float ∧ token.kind = .integer)

theorem reads_token_iff {kind : TokenKind} {found : Token} :
    Reads (token kind) ending tokens found rest ↔ tokens = found :: rest ∧ Fits kind found := by
  constructor
  · rintro ⟨shorter, success⟩
    cases tokens with
    | nil => cases success
    | cons first others =>
        rw [token] at success
        split at success
        · rename_i fits
          cases success
          exact ⟨rfl, fits⟩
        · cases success
  · rintro ⟨rfl, fits⟩
    exact ⟨Nat.lt_succ_self _, if_pos fits⟩

theorem reads_map_iff {parser : Parser α} {f : α → β} {value : β} :
    Reads (parser.map f) ending tokens value rest ↔
      ∃ inner, Reads parser ending tokens inner rest ∧ f inner = value := by
  constructor
  · rintro ⟨shorter, success⟩
    obtain ⟨read, found, same⟩ := Success.map_eq_ok_iff.mp success
    cases same
    exact ⟨read.value, ⟨read.shorter, found⟩, rfl⟩
  · rintro ⟨inner, ⟨shorter, found⟩, rfl⟩
    exact ⟨shorter, Success.map_eq_ok_iff.mpr ⟨_, found, rfl⟩⟩

theorem reads_bind_iff {first : Parser α} {second : α → Parser β} {value : β} :
    Reads (first.bind second) ending tokens value rest ↔
      ∃ inner middle, Reads first ending tokens inner middle ∧
        Reads (second inner) ending middle value rest := by
  constructor
  · rintro ⟨shorter, success⟩
    unfold Parser.bind at success
    split at success
    · cases success
    · rename_i read found
      split at success
      · cases success
      · rename_i later foundLater
        cases success
        exact ⟨read.value, read.rest, ⟨read.shorter, found⟩, ⟨later.shorter, foundLater⟩⟩
  · rintro ⟨inner, middle, ⟨fewer, found⟩, ⟨less, foundLater⟩⟩
    refine ⟨Nat.lt_trans less fewer, ?_⟩
    unfold Parser.bind
    rw [found]
    simp only
    rw [foundLater]
    rfl

theorem reads_check_iff {parser : Parser α} {test : α → Except Fault β} {value : β} :
    Reads (parser.check test) ending tokens value rest ↔
      ∃ inner, Reads parser ending tokens inner rest ∧ test inner = .ok value := by
  constructor
  · rintro ⟨shorter, success⟩
    unfold Parser.check at success
    split at success
    · cases success
    · rename_i read found
      split at success
      · cases success
      · rename_i passed
        cases success
        exact ⟨read.value, ⟨read.shorter, found⟩, passed⟩
  · rintro ⟨inner, ⟨shorter, found⟩, passed⟩
    refine ⟨shorter, ?_⟩
    unfold Parser.check
    rw [found]
    simp only
    rw [passed]
    rfl

theorem reads_byFirst_iff {choose : Token → Option β} {chosen : β → Parser α} {other : Parser α}
    {value : α} :
    Reads (byFirst choose chosen other) ending tokens value rest ↔
      (∃ first tail choice, tokens = first :: tail ∧ choose first = some choice ∧
        Reads (chosen choice) ending tail value rest) ∨
      ((∀ first, tokens.head? = some first → choose first = none) ∧ Reads other ending tokens value rest) := by
  cases tokens with
  | nil =>
      constructor
      · intro reads
        exact .inr ⟨nofun, reads⟩
      · rintro (⟨_, _, _, impossible, _⟩ | ⟨_, reads⟩)
        · cases impossible
        · exact reads
  | cons first tail =>
      cases choice : choose first with
      | none =>
          have same : byFirst choose chosen other ending (first :: tail) = other ending (first :: tail) := by
            rw [byFirst, choice]
          constructor
          · rintro ⟨shorter, success⟩
            refine .inr ⟨?_, shorter, same ▸ success⟩
            rintro _ ⟨⟩
            exact choice
          · rintro (⟨_, _, picked, ⟨⟩, isPicked, _⟩ | ⟨_, shorter, success⟩)
            · rw [choice] at isPicked
              cases isPicked
            · exact ⟨shorter, same ▸ success⟩
      | some picked =>
          have same : byFirst choose chosen other ending (first :: tail) =
              (chosen picked ending tail).map (Read.widen (Nat.le_succ _)) := by
            rw [byFirst, choice]
          constructor
          · rintro ⟨shorter, success⟩
            rw [same] at success
            obtain ⟨read, found, ⟨⟩⟩ := Success.map_eq_ok_iff.mp success
            exact .inl ⟨first, tail, picked, rfl, choice, read.shorter, found⟩
          · rintro (⟨_, _, again, ⟨⟩, isAgain, fewer, found⟩ | ⟨unpicked, _⟩)
            · rw [choice] at isAgain
              cases isAgain
              refine ⟨Nat.lt_succ_of_lt fewer, ?_⟩
              rw [same, found]
              rfl
            · have impossible := unpicked first rfl
              rw [choice] at impossible
              cases impossible

/-- The next token is of the class. -/
def NextIs (kind : TokenKind) (tokens : List Token) : Prop :=
  tokens.head?.map Token.kind = some kind

theorem nextIs_iff {kind : TokenKind} :
    NextIs kind tokens ↔ ∃ next tail, tokens = next :: tail ∧ next.kind = kind := by
  cases tokens with
  | nil => exact ⟨nofun, fun ⟨_, _, impossible, _⟩ => nomatch impossible⟩
  | cons next tail =>
      constructor
      · intro isNext
        exact ⟨next, tail, rfl, Option.some.inj isNext⟩
      · rintro ⟨_, _, ⟨⟩, rfl⟩
        rfl

theorem not_nextIs_nil (kind : TokenKind) : ¬ NextIs kind [] :=
  fun isNext => absurd isNext.symm (Option.some_ne_none kind)

theorem reads_andMaybe_iff {first : Parser α} {kind : TokenKind} {second : Parser β}
    {value : α × Option β} :
    Reads (first.andMaybe kind second) ending tokens value rest ↔
      (∃ inner, Reads first ending tokens inner rest ∧ ¬ NextIs kind rest ∧ value = (inner, none)) ∨
      ∃ inner next tail other, Reads first ending tokens inner (next :: tail) ∧ next.kind = kind ∧
        Reads second ending tail other rest ∧ value = (inner, some other) := by
  constructor
  · rintro ⟨shorter, success⟩
    unfold andMaybe at success
    split at success
    · cases success
    · rename_i inner fewer found
      cases success
      exact .inl ⟨inner, ⟨fewer, found⟩, not_nextIs_nil kind, rfl⟩
    · rename_i inner next tail fewer found
      split at success
      · rename_i isKind
        split at success
        · cases success
        · rename_i later foundLater
          cases success
          exact .inr ⟨inner, next, tail, later.value, ⟨fewer, found⟩, isKind, ⟨later.shorter, foundLater⟩, rfl⟩
      · rename_i otherKind
        cases success
        refine .inl ⟨inner, ⟨fewer, found⟩, ?_, rfl⟩
        rw [nextIs_iff]
        rintro ⟨_, _, ⟨⟩, isKind⟩
        exact otherKind isKind
  · rintro (⟨inner, ⟨fewer, found⟩, notNext, rfl⟩ |
      ⟨inner, next, tail, other, ⟨fewer, found⟩, isKind, ⟨less, foundLater⟩, rfl⟩)
    · refine ⟨fewer, ?_⟩
      unfold andMaybe
      rw [found]
      cases rest with
      | nil => rfl
      | cons next tail =>
          have otherKind : next.kind ≠ kind := fun isKind => notNext (congrArg some isKind)
          simp only [if_neg otherKind]
    · refine ⟨Nat.lt_trans less (Nat.lt_trans (Nat.lt_succ_self _) fewer), ?_⟩
      unfold andMaybe
      rw [found]
      simp only [if_pos isKind, foundLater]
      rfl

theorem reads_separated_iff {kind : TokenKind} {item : Parser α} {values : List α} :
    Reads (separated kind item) ending tokens values rest ↔
      (∃ value, Reads item ending tokens value rest ∧ ¬ NextIs kind rest ∧ values = [value]) ∨
      ∃ value next tail others, Reads item ending tokens value (next :: tail) ∧ next.kind = kind ∧
        Reads (separated kind item) ending tail others rest ∧ values = value :: others := by
  constructor
  · rintro ⟨shorter, success⟩
    rw [separated] at success
    split at success
    · cases success
    · rename_i value fewer found
      cases success
      exact .inl ⟨value, ⟨fewer, found⟩, not_nextIs_nil kind, rfl⟩
    · rename_i value next tail fewer found
      split at success
      · rename_i isKind
        split at success
        · cases success
        · rename_i later foundLater
          cases success
          exact .inr ⟨value, next, tail, later.value, ⟨fewer, found⟩, isKind, ⟨later.shorter, foundLater⟩, rfl⟩
      · rename_i otherKind
        cases success
        refine .inl ⟨value, ⟨fewer, found⟩, ?_, rfl⟩
        rw [nextIs_iff]
        rintro ⟨_, _, ⟨⟩, isKind⟩
        exact otherKind isKind
  · rintro (⟨value, ⟨fewer, found⟩, notNext, rfl⟩ |
      ⟨value, next, tail, others, ⟨fewer, found⟩, isKind, ⟨less, foundLater⟩, rfl⟩)
    · refine ⟨fewer, ?_⟩
      rw [separated, found]
      cases rest with
      | nil => rfl
      | cons next tail =>
          have otherKind : next.kind ≠ kind := fun isKind => notNext (congrArg some isKind)
          simp only [if_neg otherKind]
    · refine ⟨Nat.lt_trans less (Nat.lt_trans (Nat.lt_succ_self _) fewer), ?_⟩
      rw [separated, found]
      simp only [if_pos isKind, foundLater]
      rfl

theorem reads_upTo_iff {kind : TokenKind} {item : Parser α} {values : List α} :
    Reads (upTo kind item) ending tokens values rest ↔
      (∃ value, Reads item ending tokens value rest ∧ NextIs kind rest ∧ values = [value]) ∨
      ∃ value middle others, Reads item ending tokens value middle ∧ ¬ NextIs kind middle ∧
        Reads (upTo kind item) ending middle others rest ∧ values = value :: others := by
  constructor
  · rintro ⟨shorter, success⟩
    rw [upTo] at success
    split at success
    · cases success
    · rename_i value middle fewer found
      split at success
      · rename_i isNext
        cases success
        exact .inl ⟨value, ⟨fewer, found⟩, isNext, rfl⟩
      · rename_i notNext
        split at success
        · cases success
        · rename_i later foundLater
          cases success
          exact .inr ⟨value, middle, later.value, ⟨fewer, found⟩, notNext, ⟨later.shorter, foundLater⟩, rfl⟩
  · rintro (⟨value, ⟨fewer, found⟩, isNext, rfl⟩ |
      ⟨value, middle, others, ⟨fewer, found⟩, notNext, ⟨less, foundLater⟩, rfl⟩)
    · refine ⟨fewer, ?_⟩
      rw [upTo, found]
      exact if_pos isNext
    · refine ⟨Nat.lt_trans less fewer, ?_⟩
      rw [upTo, found]
      refine (if_neg notNext).trans ?_
      rw [foundLater]
      rfl

/-! ## Marks, words and numbers -/

theorem reads_afterMark_iff {kind : TokenKind} {parser : Parser α} {value : α} :
    Reads (afterMark kind parser) ending tokens value rest ↔
      ∃ mark tail, tokens = mark :: tail ∧ Fits kind mark ∧ Reads parser ending tail value rest := by
  rw [afterMark, reads_bind_iff]
  constructor
  · rintro ⟨mark, tail, readsMark, reads⟩
    obtain ⟨rfl, fits⟩ := reads_token_iff.mp readsMark
    exact ⟨mark, tail, rfl, fits, reads⟩
  · rintro ⟨mark, tail, rfl, fits, reads⟩
    exact ⟨mark, tail, reads_token_iff.mpr ⟨rfl, fits⟩, reads⟩

theorem reads_beforeMark_iff {kind : TokenKind} {parser : Parser α} {value : α} :
    Reads (beforeMark kind parser) ending tokens value rest ↔
      ∃ mark, Fits kind mark ∧ Reads parser ending tokens value (mark :: rest) := by
  rw [beforeMark, reads_bind_iff]
  constructor
  · rintro ⟨inner, middle, reads, readsMark⟩
    obtain ⟨mark, isMark, rfl⟩ := reads_map_iff.mp readsMark
    obtain ⟨rfl, fits⟩ := reads_token_iff.mp isMark
    exact ⟨mark, fits, reads⟩
  · rintro ⟨mark, fits, reads⟩
    exact ⟨value, _, reads, reads_map_iff.mpr ⟨mark, reads_token_iff.mpr ⟨rfl, fits⟩, rfl⟩⟩

theorem reads_identifier_iff {name : String} :
    Reads identifier ending tokens name rest ↔
      ∃ token, tokens = token :: rest ∧ token.kind = .identifier ∧ token.text = name := by
  rw [identifier, reads_map_iff]
  constructor
  · rintro ⟨token, isToken, rfl⟩
    obtain ⟨rfl, fits | ⟨impossible, _⟩⟩ := reads_token_iff.mp isToken
    · exact ⟨token, rfl, fits, rfl⟩
    · cases impossible
  · rintro ⟨token, rfl, fits, rfl⟩
    exact ⟨token, reads_token_iff.mpr ⟨rfl, .inl fits⟩, rfl⟩

theorem reads_integer_iff {value : Int32} :
    Reads integer ending tokens value rest ↔
      ∃ token, tokens = token :: rest ∧ token.kind = .integer ∧
        Number.readInt32? token.text.toList = some value := by
  rw [integer, reads_check_iff]
  constructor
  · rintro ⟨token, isToken, passed⟩
    obtain ⟨rfl, fits | ⟨impossible, _⟩⟩ := reads_token_iff.mp isToken
    · refine ⟨token, rfl, fits, ?_⟩
      split at passed
      · rename_i read
        cases passed
        exact read
      · cases passed
    · cases impossible
  · rintro ⟨token, rfl, fits, read⟩
    refine ⟨token, reads_token_iff.mpr ⟨rfl, .inl fits⟩, ?_⟩
    rw [read]

theorem reads_number_iff {value : Number.Single} :
    Reads number ending tokens value rest ↔
      ∃ token, tokens = token :: rest ∧ Fits .float token ∧
        Number.Single.read? token.text.toList = some value := by
  rw [number, reads_check_iff]
  constructor
  · rintro ⟨token, isToken, passed⟩
    obtain ⟨rfl, fits⟩ := reads_token_iff.mp isToken
    refine ⟨token, rfl, fits, ?_⟩
    split at passed
    · rename_i read
      cases passed
      exact read
    · cases passed
  · rintro ⟨token, rfl, fits, read⟩
    refine ⟨token, reads_token_iff.mpr ⟨rfl, fits⟩, ?_⟩
    rw [read]

theorem reads_word_iff {slot : Slot} {ofWord? : String → Option α} {value : α} :
    Reads (word slot ofWord?) ending tokens value rest ↔
      ∃ token, tokens = token :: rest ∧ token.kind = .identifier ∧ ofWord? token.text = some value := by
  rw [word, reads_check_iff]
  constructor
  · rintro ⟨token, isToken, passed⟩
    obtain ⟨rfl, fits | ⟨impossible, _⟩⟩ := reads_token_iff.mp isToken
    · refine ⟨token, rfl, fits, ?_⟩
      split at passed
      · rename_i read
        cases passed
        exact read
      · cases passed
    · cases impossible
  · rintro ⟨token, rfl, fits, read⟩
    refine ⟨token, reads_token_iff.mpr ⟨rfl, .inl fits⟩, ?_⟩
    rw [read]

/-! ## Statements -/

/-- An `if` has more than one block, and the last one does not test a named condition. -/
def Complete (blocks : List (Block Pos)) : Prop :=
  blocks.length ≠ 1 ∧ ∀ name, blocks.getLast?.map Block.condition ≠ some (.named name)

theorem checkBlocks_eq_ok_iff {stop : Pos} {blocks others : List (Block Pos)} :
    checkBlocks stop blocks = .ok others ↔ others = blocks ∧ Complete blocks := by
  unfold checkBlocks
  constructor
  · intro passed
    split at passed
    · cases passed
    · rename_i several
      split at passed
      · cases passed
      · rename_i notNamed
        cases passed
        exact ⟨rfl, several, notNamed⟩
  · rintro ⟨rfl, several, notNamed⟩
    rw [if_neg several]
    split
    · rename_i name named
      exact absurd named (notNamed name)
    · rfl

theorem reads_body_iff {ends : Token → Bool} {statements : List (Statement Pos)} {stop : Token} :
    Reads (body ends) ending tokens (statements, stop) rest ↔
      (tokens = stop :: rest ∧ ends stop = true ∧ statements = []) ∨
      ∃ head tail first later others, tokens = head :: tail ∧ ends head = false ∧
        Reads (statement false head) ending tail first later ∧
        Reads (body ends) ending later (others, stop) rest ∧ statements = first :: others := by
  constructor
  · rintro ⟨shorter, success⟩
    unfold body at success
    split at success
    · cases success
    · rename_i head tail
      split at success
      · rename_i isEnd
        cases success
        exact .inl ⟨rfl, isEnd, rfl⟩
      · rename_i notEnd
        split at success
        · cases success
        · rename_i first later fewer found
          split at success
          · cases success
          · rename_i others last tailRest less foundLater
            cases success
            exact .inr ⟨head, tail, first, later, others, rfl, by simpa using notEnd, ⟨fewer, found⟩,
              ⟨less, foundLater⟩, rfl⟩
  · rintro (⟨rfl, isEnd, rfl⟩ |
      ⟨head, tail, first, later, others, rfl, notEnd, ⟨fewer, found⟩, ⟨less, foundLater⟩, rfl⟩)
    · refine ⟨Nat.lt_succ_self _, ?_⟩
      rw [body, if_pos isEnd]
    · refine ⟨Nat.lt_trans less (Nat.lt_trans fewer (Nat.lt_succ_self _)), ?_⟩
      rw [body, if_neg (by simp [notEnd]), found]
      simp only
      rw [foundLater]

/-- How the blocks of an `if` go on after the token that ended one of them. -/
inductive GoesOn (condition : Condition) (ending : Ending) (stop : Token) (tokens : List Token) :
    List (Block Pos) → Pos → List Token → Prop where
  | finish (isEnd : stop.text = "end") : GoesOn condition ending stop tokens [] stop.pos tokens
  | otherwise {others : List (Block Pos)} {place : Pos} {rest : List Token} (notEnd : stop.text ≠ "end")
      (notLast : condition ≠ .otherwise) (isElse : stop.text = "else")
      (reads : Reads (blocks .otherwise) ending tokens (others, place) rest) :
      GoesOn condition ending stop tokens others place rest
  | next {next : Condition} {later : List Token} {others : List (Block Pos)} {place : Pos}
      {rest : List Token} (notEnd : stop.text ≠ "end") (notLast : condition ≠ .otherwise)
      (notElse : stop.text ≠ "else") (tests : Reads Parser.condition ending tokens next later)
      (reads : Reads (blocks next) ending later (others, place) rest) :
      GoesOn condition ending stop tokens others place rest

theorem reads_blocks_iff {condition : Condition} {found : List (Block Pos)} {place : Pos} :
    Reads (blocks condition) ending tokens (found, place) rest ↔
      ∃ statements stop middle others, Reads (body endsBlock) ending tokens (statements, stop) middle ∧
        GoesOn condition ending stop middle others place rest ∧ found = .mk condition statements :: others := by
  constructor
  · rintro ⟨shorter, success⟩
    rw [blocks] at success
    split at success
    · cases success
    · rename_i statements stop middle fewer foundBody
      split at success
      · rename_i isEnd
        cases success
        exact ⟨statements, stop, rest, [], ⟨fewer, foundBody⟩, .finish isEnd, rfl⟩
      · rename_i notEnd
        split at success
        · cases success
        · rename_i notLast
          split at success
          · rename_i isElse
            split at success
            · cases success
            · rename_i others last tail less foundRest
              cases success
              exact ⟨statements, stop, middle, others, ⟨fewer, foundBody⟩,
                .otherwise notEnd notLast isElse ⟨less, foundRest⟩, rfl⟩
          · rename_i notElse
            split at success
            · cases success
            · rename_i next later less foundCondition
              split at success
              · cases success
              · rename_i others last tail least foundRest
                cases success
                exact ⟨statements, stop, middle, others, ⟨fewer, foundBody⟩,
                  .next notEnd notLast notElse ⟨less, foundCondition⟩ ⟨least, foundRest⟩, rfl⟩
  · rintro ⟨statements, stop, middle, others, ⟨fewer, foundBody⟩, goesOn, rfl⟩
    cases goesOn with
    | finish isEnd =>
        refine ⟨fewer, ?_⟩
        rw [blocks, foundBody]
        simp only [if_pos isEnd]
    | otherwise notEnd notLast isElse reads =>
        obtain ⟨less, foundRest⟩ := reads
        refine ⟨Nat.lt_trans less fewer, ?_⟩
        rw [blocks, foundBody]
        simp only [if_neg notEnd, if_neg notLast, if_pos isElse, foundRest]
    | next notEnd notLast notElse tests reads =>
        obtain ⟨less, foundCondition⟩ := tests
        obtain ⟨least, foundRest⟩ := reads
        refine ⟨Nat.lt_trans least (Nat.lt_trans less fewer), ?_⟩
        rw [blocks, foundBody]
        simp only [if_neg notEnd, if_neg notLast, if_neg notElse, foundCondition, foundRest]

/-- The ways in which a statement is read after its first token. -/
inductive ReadsStatement (topLevel : Bool) (head : Token) (ending : Ending) (tokens : List Token) :
    Statement Pos → List Token → Prop where
  | sub {name : String} {middle : List Token} {statements : List (Statement Pos)} {stop : Token}
      {rest : List Token} (isWord : head.text = "sub") (outermost : topLevel = true)
      (named : Reads identifier ending tokens name middle)
      (inner : Reads (body endsSub) ending middle (statements, stop) rest) :
      ReadsStatement topLevel head ending tokens (.sub head.pos name statements) rest
  | group {group : Group} {rest : List Token} (isWord : head.text = "group") (outermost : topLevel = true)
      (declared : Reads groupDeclaration ending tokens group rest) :
      ReadsStatement topLevel head ending tokens (.group head.pos group) rest
  | choice {condition : Condition} {middle : List Token} {found : List (Block Pos)} {stop : Pos}
      {rest : List Token} (isWord : head.text = "if")
      (tested : Reads Parser.condition ending tokens condition middle)
      (inner : Reads (blocks condition) ending middle (found, stop) rest) (complete : Complete found) :
      ReadsStatement topLevel head ending tokens (.choice head.pos found) rest
  | leaf {parser : Parser (Statement Pos)} {statement : Statement Pos} {rest : List Token}
      (notSub : head.text ≠ "sub") (notGroup : head.text ≠ "group") (notIf : head.text ≠ "if")
      (known : leaf? head.pos head.text = some parser) (reads : Reads parser ending tokens statement rest) :
      ReadsStatement topLevel head ending tokens statement rest

theorem reads_statement_iff {topLevel : Bool} {head : Token} {result : Statement Pos} :
    Reads (statement topLevel head) ending tokens result rest ↔
      head.kind = .identifier ∧ ReadsStatement topLevel head ending tokens result rest := by
  constructor
  · rintro ⟨shorter, success⟩
    unfold statement at success
    split at success
    · cases success
    rename_i isName
    refine ⟨Decidable.not_not.mp isName, ?_⟩
    split at success
    · cases success
    rename_i placed
    have outermost (declares : head.text = "sub" ∨ head.text = "group") : topLevel = true := by
      cases topLevel with
      | true => rfl
      | false => exact absurd ⟨declares, rfl⟩ placed
    split at success
    · rename_i isSub
      split at success
      · cases success
      · rename_i name middle fewer found
        split at success
        · cases success
        · rename_i statements stop tail less foundBody
          cases success
          exact .sub isSub (outermost (.inl isSub)) ⟨fewer, found⟩ ⟨less, foundBody⟩
    rename_i notSub
    split at success
    · rename_i isGroup
      obtain ⟨group, declared, rfl⟩ := reads_map_iff.mp ⟨shorter, success⟩
      exact .group isGroup (outermost (.inr isGroup)) declared
    rename_i notGroup
    split at success
    · rename_i isIf
      split at success
      · cases success
      · rename_i condition middle fewer found
        split at success
        · cases success
        · rename_i inner stop tail less foundBlocks
          split at success
          · cases success
          · rename_i checked passed
            cases success
            obtain ⟨rfl, complete⟩ := checkBlocks_eq_ok_iff.mp passed
            exact .choice isIf ⟨fewer, found⟩ ⟨less, foundBlocks⟩ complete
    rename_i notIf
    split at success
    · rename_i parser known
      exact .leaf notSub notGroup notIf known ⟨shorter, success⟩
    · cases success
  · rintro ⟨isName, reads⟩
    cases reads with
    | sub isSub outermost named inner =>
        obtain ⟨fewer, found⟩ := named
        obtain ⟨less, foundBody⟩ := inner
        refine ⟨Nat.lt_trans less fewer, ?_⟩
        unfold statement
        simp [isName, isSub, outermost, found, foundBody]
    | group isGroup outermost declared =>
        obtain ⟨shorter, success⟩ := (reads_map_iff (f := Statement.group head.pos)).mpr ⟨_, declared, rfl⟩
        refine ⟨shorter, ?_⟩
        unfold statement
        simp [isName, isGroup, outermost, success]
    | choice isIf tested inner complete =>
        obtain ⟨fewer, found⟩ := tested
        obtain ⟨less, foundBlocks⟩ := inner
        refine ⟨Nat.lt_trans less fewer, ?_⟩
        unfold statement
        simp [isName, isIf, found, foundBlocks, checkBlocks_eq_ok_iff.mpr ⟨rfl, complete⟩]
    | leaf notSub notGroup notIf known reads =>
        obtain ⟨shorter, success⟩ := reads
        refine ⟨shorter, ?_⟩
        unfold statement
        simp [isName, notSub, notGroup, notIf, known, success]

theorem script_eq_ok_iff {program : Program} :
    script ending tokens = .ok program ↔
      (tokens = [] ∧ program = [] ∧ ∃ pos, ending = .endOfFile pos) ∨
      ∃ head tail first later others, tokens = head :: tail ∧
        Reads (statement true head) ending tail first later ∧ script ending later = .ok others ∧
        program = first :: others := by
  constructor
  · intro success
    unfold script at success
    split at success
    · split at success
      · rename_i pos
        cases success
        exact .inl ⟨rfl, rfl, pos, rfl⟩
      · cases success
    · rename_i head tail
      split at success
      · cases success
      · rename_i first later fewer found
        split at success
        · cases success
        · rename_i others foundRest
          cases success
          exact .inr ⟨head, tail, first, later, others, rfl, ⟨fewer, found⟩, foundRest, rfl⟩
  · rintro (⟨rfl, rfl, pos, rfl⟩ | ⟨head, tail, first, later, others, rfl, ⟨fewer, found⟩, foundRest, rfl⟩)
    · rw [script]
    · rw [script, found]
      simp only
      rw [foundRest]

end MissionGraph.Script.Parser
