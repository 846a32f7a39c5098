import MissionGraph.Proofs.Graph.Search
import MissionGraph.Proofs.Script.Notes
import MissionGraph.Script.Parser

/-!
# Places are carried along

The parser hands on the places of tokens and does not look at them. From tokens at other places it reads the
same statements with those places, or it refuses them with the same message at the other place. The checks of a
whole script do the same with the places of its statements.
-/

namespace MissionGraph.Script

open Mission (Field)
open Number (Single)

variable {α β γ : Type}

/-! ## Other places -/

/-- The token at another place. -/
def Token.mapPos (f : Pos → Pos) (token : Token) : Token :=
  { token with pos := f token.pos }

@[simp] theorem Token.kind_mapPos (f : Pos → Pos) (token : Token) : (token.mapPos f).kind = token.kind := rfl

@[simp] theorem Token.text_mapPos (f : Pos → Pos) (token : Token) : (token.mapPos f).text = token.text := rfl

/-- Some causes name a token, with its place. -/
def Cause.mapPos (f : Pos → Pos) : Cause → Cause
  | .expected kind found => .expected kind (found.mapPos f)
  | cause => cause

def Fault.mapPos (f : Pos → Pos) (fault : Fault) : Fault :=
  ⟨f fault.pos, fault.cause.mapPos f⟩

def Ending.mapPos (f : Pos → Pos) : Ending → Ending
  | .endOfFile pos => .endOfFile (f pos)
  | .fault met => .fault (met.mapPos f)

/-- A result with other places: the value is changed, a fault is moved. -/
def carry (f : Pos → Pos) (change : α → β) : Except Fault α → Except Fault β
  | .error fault => .error (fault.mapPos f)
  | .ok value => .ok (change value)

theorem carry_ite {f : Pos → Pos} {change : α → β} {test : Prop} [Decidable test] {yes no : Except Fault α}
    {yes' no' : Except Fault β} (whenTrue : test → yes' = carry f change yes)
    (whenFalse : ¬ test → no' = carry f change no) :
    (if test then yes' else no') = carry f change (if test then yes else no) := by
  split
  · exact whenTrue ‹_›
  · exact whenFalse ‹_›

/-- The wording of a fault does not depend on places. -/
theorem Cause.message_mapPos (f : Pos → Pos) (cause : Cause) : (cause.mapPos f).message = cause.message := by
  cases cause <;> rfl

theorem Ending.toFault_mapPos {f : Pos → Pos} {cause : Token → Cause}
    (carries : ∀ token, cause (token.mapPos f) = (cause token).mapPos f) (ending : Ending) :
    (ending.mapPos f).toFault cause = (ending.toFault cause).mapPos f := by
  cases ending with
  | endOfFile pos => exact congrArg (Fault.mk (f pos)) (carries (.endOfFile pos))
  | fault met => rfl

namespace Parser

/-- A value read from tokens, as it is read from the tokens at other places. -/
def Read.mapPos (f : Pos → Pos) (change : α → β) {tokens : List Token} (read : Read tokens α) :
    Read (tokens.map (Token.mapPos f)) β :=
  ⟨change read.value, read.rest.map (Token.mapPos f), by simpa using read.shorter⟩

/-- From tokens at other places the second parser reads what the first one reads, with other places. -/
def Carries (f : Pos → Pos) (change : α → β) (first : Parser α) (second : Parser β) : Prop :=
  ∀ ending tokens, second (ending.mapPos f) (tokens.map (Token.mapPos f)) =
    carry f (Read.mapPos f change) (first ending tokens)

variable {f : Pos → Pos} {change : α → β} {first : Parser α} {second : Parser β}

theorem carries_token (f : Pos → Pos) (kind : TokenKind) : Carries f (Token.mapPos f) (token kind) (token kind) := by
  intro ending tokens
  cases tokens with
  | nil => exact congrArg Except.error (ending.toFault_mapPos fun _ => rfl)
  | cons head rest =>
      exact carry_ite (fun _ => rfl) fun _ => rfl

theorem Carries.map {δ : Type} {change' : γ → δ} {read : α → γ} {read' : β → δ}
    (carries : Carries f change first second) (same : ∀ value, read' (change value) = change' (read value)) :
    Carries f change' (first.map read) (second.map read') := by
  intro ending tokens
  rw [Parser.map, Parser.map, carries]
  cases first ending tokens with
  | error fault => rfl
  | ok result =>
      dsimp only [carry, Except.map, Script.Read.map, Read.mapPos]
      rw [same]

theorem Carries.check {δ : Type} {change' : γ → δ} {test : α → Except Fault γ} {test' : β → Except Fault δ}
    (carries : Carries f change first second) (same : ∀ value, test' (change value) = carry f change' (test value)) :
    Carries f change' (first.check test) (second.check test') := by
  intro ending tokens
  rw [Parser.check, Parser.check, carries]
  cases first ending tokens with
  | error fault => rfl
  | ok result =>
      dsimp only [carry, Read.mapPos]
      rw [same]
      cases test result.value <;> rfl

theorem Carries.bind {δ : Type} {change' : γ → δ} {next : α → Parser γ} {next' : β → Parser δ}
    (carries : Carries f change first second) (later : ∀ value, Carries f change' (next value) (next' (change value))) :
    Carries f change' (first.bind next) (second.bind next') := by
  intro ending tokens
  rw [Parser.bind, Parser.bind, carries]
  cases first ending tokens with
  | error fault => rfl
  | ok result =>
      dsimp only [carry, Read.mapPos]
      rw [later]
      cases next result.value ending result.rest <;> rfl

theorem Carries.byFirst {choose : Token → Option γ} {chosen : γ → Parser α} {chosen' : γ → Parser β}
    (same : ∀ token : Token, choose (token.mapPos f) = choose token)
    (picked : ∀ choice, Carries f change (chosen choice) (chosen' choice)) (others : Carries f change first second) :
    Carries f change (byFirst choose chosen first) (byFirst choose chosen' second) := by
  intro ending tokens
  cases tokens with
  | nil => exact others ending []
  | cons head rest =>
      dsimp only [List.map, Parser.byFirst]
      rw [same]
      cases choose head with
      | none => exact others ending (head :: rest)
      | some choice =>
          dsimp only
          rw [picked]
          cases chosen choice ending rest <;> rfl

theorem Carries.andMaybe {δ : Type} {change' : γ → δ} {kind : TokenKind} {next : Parser γ} {next' : Parser δ}
    (carries : Carries f change first second) (later : Carries f change' next next') :
    Carries f (Prod.map change (Option.map change')) (first.andMaybe kind next) (second.andMaybe kind next') := by
  intro ending tokens
  rw [Parser.andMaybe, Parser.andMaybe, carries]
  rcases first ending tokens with fault | ⟨value, _ | ⟨head, rest⟩, shorter⟩
  · rfl
  · rfl
  · refine carry_ite (fun _ => ?_) fun _ => rfl
    rw [later]
    cases next ending rest <;> rfl

theorem Carries.separated (carries : Carries f change first second) (kind : TokenKind) :
    Carries f (List.map change) (separated kind first) (separated kind second) := by
  intro ending tokens
  induction shape : tokens.length using Nat.strongRecOn generalizing tokens with
  | ind length ih =>
      rw [Parser.separated, Parser.separated, carries]
      rcases first ending tokens with fault | ⟨value, _ | ⟨head, rest⟩, shorter⟩
      · rfl
      · rfl
      · have less : rest.length < length := shape ▸ Nat.lt_trans (Nat.lt_succ_self _) shorter
        refine carry_ite (fun _ => ?_) fun _ => rfl
        rw [ih rest.length less rest rfl]
        cases Parser.separated kind first ending rest <;> rfl

theorem Carries.upTo (carries : Carries f change first second) (kind : TokenKind) :
    Carries f (List.map change) (upTo kind first) (upTo kind second) := by
  intro ending tokens
  induction shape : tokens.length using Nat.strongRecOn generalizing tokens with
  | ind length ih =>
      rw [Parser.upTo, Parser.upTo, carries]
      rcases first ending tokens with fault | ⟨value, rest, shorter⟩
      · rfl
      · have sameKind : (rest.map (Token.mapPos f)).head?.map Token.kind = rest.head?.map Token.kind := by
          cases rest <;> rfl
        dsimp only [carry, Read.mapPos]
        rw [sameKind]
        refine carry_ite (fun _ => rfl) fun _ => ?_
        rw [ih rest.length (shape ▸ shorter) rest rfl]
        cases Parser.upTo kind first ending rest <;> rfl

/-! ## Field values -/

/-- The parser reads no places, so that its values stay as they are. -/
abbrev CarriesSame (f : Pos → Pos) (parser : Parser α) : Prop :=
  Carries f id parser parser

theorem carriesSame_afterMark (kind : TokenKind) {parser : Parser α} (same : CarriesSame f parser) :
    CarriesSame f (afterMark kind parser) :=
  (carries_token f kind).bind fun _ => same

theorem Carries.beforeMark (carries : Carries f change first second) (kind : TokenKind) :
    Carries f change (beforeMark kind first) (beforeMark kind second) :=
  carries.bind fun _ => (carries_token f kind).map fun _ => rfl

theorem carriesSame_identifier (f : Pos → Pos) : CarriesSame f identifier :=
  (carries_token f .identifier).map fun _ => rfl

theorem carriesSame_integer (f : Pos → Pos) : CarriesSame f integer := by
  refine (carries_token f .integer).check fun token => ?_
  dsimp only [Token.text_mapPos]
  cases Number.readInt32? token.text.toList <;> rfl

theorem carriesSame_number (f : Pos → Pos) : CarriesSame f number := by
  refine (carries_token f .float).check fun token => ?_
  dsimp only [Token.text_mapPos]
  cases Single.read? token.text.toList <;> rfl

theorem carriesSame_word (f : Pos → Pos) (slot : Slot) (ofWord? : String → Option α) :
    CarriesSame f (word slot ofWord?) := by
  refine (carries_token f .identifier).check fun token => ?_
  dsimp only [Token.text_mapPos]
  cases ofWord? token.text <;> rfl

theorem carriesSame_separated (kind : TokenKind) {item : Parser α} (same : CarriesSame f item) :
    CarriesSame f (separated kind item) := by
  rw [CarriesSame, ← List.map_id_fun]
  exact Carries.separated same kind

theorem carriesSame_upTo (kind : TokenKind) {item : Parser α} (same : CarriesSame f item) :
    CarriesSame f (upTo kind item) := by
  rw [CarriesSame, ← List.map_id_fun]
  exact Carries.upTo same kind

theorem carriesSame_names (f : Pos → Pos) : CarriesSame f names :=
  carriesSame_separated .comma (carriesSame_identifier f)

theorem carriesSame_comm (f : Pos → Pos) : CarriesSame f comm :=
  (carriesSame_identifier f).bind fun _ =>
  (carriesSame_afterMark .comma (carriesSame_word f _ _)).bind fun _ =>
  (carriesSame_afterMark .comma (carriesSame_number f)).bind fun _ =>
  (carriesSame_afterMark .comma (carriesSame_number f)).bind fun _ =>
  (carriesSame_afterMark .comma (carriesSame_number f)).bind fun _ =>
  (carriesSame_afterMark .comma (carriesSame_word f _ _)).bind fun _ =>
  (carriesSame_afterMark .comma (carriesSame_identifier f)).map fun _ => rfl

theorem carriesSame_message (f : Pos → Pos) : CarriesSame f message := by
  refine ((carriesSame_integer f).andMaybe (carriesSame_names f)).map ?_
  rintro ⟨id, args⟩
  cases args <;> rfl

theorem carriesSame_objective (f : Pos → Pos) : CarriesSame f objective :=
  (carriesSame_identifier f).bind fun _ => (carriesSame_afterMark .comma (carriesSame_message f)).map fun _ => rfl

theorem carriesSame_difficulty (f : Pos → Pos) : CarriesSame f difficulty :=
  (carriesSame_number f).bind fun _ => (carriesSame_afterMark .comma (carriesSame_number f)).map fun _ => rfl

theorem itemArgs_mapPos (f : Pos → Pos) (tokens : List Token) :
    itemArgs (tokens.map (Token.mapPos f)) = (itemArgs tokens).map id (List.map (Token.mapPos f)) := by
  fun_induction itemArgs tokens <;> simp_all [itemArgs]

theorem carriesSame_itemMessage (f : Pos → Pos) : CarriesSame f itemMessage := by
  intro ending tokens
  rw [itemMessage, itemMessage, carriesSame_integer f]
  rcases integer ending tokens with fault | ⟨id, rest, shorter⟩
  · rfl
  · simp only [carry, Read.mapPos, itemArgs_mapPos]
    rfl

theorem carriesSame_offerItem (f : Pos → Pos) : CarriesSame f offerItem :=
  Carries.byFirst (fun _ => rfl)
    (fun _ => (carriesSame_afterMark .comma (carriesSame_itemMessage f)).map fun _ => rfl)
    ((carriesSame_itemMessage f).map fun _ => rfl)

theorem carriesSame_offer (f : Pos → Pos) : CarriesSame f offer :=
  (carriesSame_word f _ _).bind fun _ =>
    (carriesSame_afterMark .leftParen
      ((carriesSame_upTo .rightParen (carriesSame_offerItem f)).beforeMark .rightParen)).map fun _ => rfl

theorem carriesSame_offers (f : Pos → Pos) : CarriesSame f offers :=
  carriesSame_afterMark .leftParen ((carriesSame_separated .comma (carriesSame_offer f)).beforeMark .rightParen)

theorem carriesSame_field {keyword : String} {parser : Parser Field} (found : field? keyword = some parser)
    (f : Pos → Pos) : CarriesSame f parser := by
  unfold field? at found
  split at found <;> cases found
  · exact (carriesSame_comm f).map fun _ => rfl
  · exact (carriesSame_message f).map fun _ => rfl
  · exact (carriesSame_message f).map fun _ => rfl
  · exact (carriesSame_objective f).map fun _ => rfl
  · exact (carriesSame_offers f).map fun _ => rfl
  · exact (carriesSame_difficulty f).map fun _ => rfl
  · exact (carriesSame_integer f).map fun _ => rfl
  · exact (carriesSame_names f).map fun _ => rfl
  · exact (carriesSame_identifier f).map fun _ => rfl
  · exact (carriesSame_identifier f).map fun _ => rfl

/-! ## Statements -/

/-- The keyword of a leaf does not depend on the place, and its parser carries the place along. -/
theorem leaf?_mapPos (f : Pos → Pos) (pos : Pos) (keyword : String) :
    (leaf? pos keyword = none ∧ leaf? (f pos) keyword = none) ∨
      ∃ parser moved, leaf? pos keyword = some parser ∧ leaf? (f pos) keyword = some moved ∧
        Carries f (Statement.mapNotes f) parser moved := by
  unfold leaf?
  split
  · refine .inr ⟨_, _, rfl, rfl, Carries.beforeMark ?_ _⟩
    exact (carriesSame_identifier f).map fun _ => rfl
  · exact .inr ⟨_, _, rfl, rfl, (carries_token f .semicolon).map fun _ => rfl⟩
  · refine .inr ⟨_, _, rfl, rfl, Carries.beforeMark ?_ _⟩
    exact (carriesSame_identifier f).map fun _ => rfl
  · cases found : field? keyword with
    | none => exact .inl ⟨rfl, rfl⟩
    | some parser =>
        refine .inr ⟨_, _, rfl, rfl, Carries.beforeMark ?_ _⟩
        exact (carriesSame_field found f).map fun _ => rfl

theorem carriesSame_groupDeclaration (f : Pos → Pos) : CarriesSame f groupDeclaration :=
  (carriesSame_identifier f).bind fun _ => ((carriesSame_names f).beforeMark .semicolon).map fun _ => rfl

theorem carriesSame_condition (f : Pos → Pos) : CarriesSame f condition :=
  Carries.byFirst (fun _ => rfl)
    (fun _ => (carriesSame_afterMark .leftParen ((carriesSame_identifier f).beforeMark .rightParen)).map fun _ => rfl)
    ((carriesSame_identifier f).map fun _ => rfl)

theorem checkBlocks_mapPos (f : Pos → Pos) (stop : Pos) (blocks : List (Block Pos)) :
    checkBlocks (f stop) (mapNotesBlocks f blocks) = carry f (mapNotesBlocks f) (checkBlocks stop blocks) := by
  have conditions := map_condition_mapNotesBlocks f blocks
  have sameLength : (mapNotesBlocks f blocks).length = blocks.length := by
    simpa using congrArg List.length conditions
  have sameLast : (mapNotesBlocks f blocks).getLast?.map Block.condition = blocks.getLast?.map Block.condition := by
    rw [← List.getLast?_map, conditions, List.getLast?_map]
  unfold checkBlocks
  rw [sameLength, sameLast]
  split
  · rfl
  · split <;> rfl

mutual

theorem statement_mapPos (f : Pos → Pos) (topLevel : Bool) (head : Token) (ending : Ending) (tokens : List Token) :
    statement topLevel (head.mapPos f) (ending.mapPos f) (tokens.map (Token.mapPos f)) =
      carry f (Read.mapPos f (Statement.mapNotes f)) (statement topLevel head ending tokens) := by
  rw [statement, statement]
  refine carry_ite (fun _ => rfl) fun _ => carry_ite (fun _ => rfl) fun _ => carry_ite (fun _ => ?_) fun _ =>
    carry_ite (fun _ => ?_) fun _ => carry_ite (fun _ => ?_) fun _ => ?_
  · rw [carriesSame_identifier f]
    rcases identifier ending tokens with fault | ⟨name, rest, shorter⟩
    · rfl
    · dsimp only [carry, Read.mapPos]
      rw [body_mapPos f (fun _ => rfl) ending rest]
      rcases body endsSub ending rest with fault | ⟨⟨statements, stop⟩, tail, fewer⟩ <;> rfl
  · have carries : Carries f (Statement.mapNotes f) (groupDeclaration.map (.group head.pos))
        (groupDeclaration.map (.group (f head.pos))) := (carriesSame_groupDeclaration f).map fun _ => rfl
    exact carries ending tokens
  · rw [carriesSame_condition f]
    rcases condition ending tokens with fault | ⟨test, rest, shorter⟩
    · rfl
    · dsimp only [carry, Read.mapPos]
      rw [id_eq, blocks_mapPos f test ending rest]
      rcases blocks test ending rest with fault | ⟨⟨read, stop⟩, tail, fewer⟩
      · rfl
      · dsimp only [carry, Read.mapPos, Prod.map]
        rw [checkBlocks_mapPos]
        cases checkBlocks stop read <;> rfl
  · dsimp only [Token.mapPos]
    rcases leaf?_mapPos f head.pos head.text with ⟨plain, mapped⟩ | ⟨parser, moved, plain, mapped, carries⟩
    · rw [plain, mapped]
      rfl
    · rw [plain, mapped]
      exact carries ending tokens
termination_by 2 * tokens.length + 1

theorem body_mapPos (f : Pos → Pos) {ends : Token → Bool} (same : ∀ token : Token, ends (token.mapPos f) = ends token)
    (ending : Ending) (tokens : List Token) :
    body ends (ending.mapPos f) (tokens.map (Token.mapPos f)) =
      carry f (Read.mapPos f (Prod.map (mapNotesBody f) (Token.mapPos f))) (body ends ending tokens) := by
  cases tokens with
  | nil =>
      show body ends (ending.mapPos f) [] = _
      rw [body, body]
      exact congrArg Except.error (ending.toFault_mapPos fun _ => rfl)
  | cons head rest =>
      show body ends (ending.mapPos f) (head.mapPos f :: rest.map (Token.mapPos f)) = _
      rw [body, body, same]
      refine carry_ite (fun _ => rfl) fun _ => ?_
      rw [statement_mapPos f false head ending rest]
      rcases statement false head ending rest with fault | ⟨first, later, shorter⟩
      · rfl
      · dsimp only [carry, Read.mapPos]
        rw [body_mapPos f same ending later]
        rcases body ends ending later with fault | ⟨⟨others, stop⟩, tail, fewer⟩ <;> rfl
termination_by 2 * tokens.length

theorem blocks_mapPos (f : Pos → Pos) (test : Condition) (ending : Ending) (tokens : List Token) :
    blocks test (ending.mapPos f) (tokens.map (Token.mapPos f)) =
      carry f (Read.mapPos f (Prod.map (mapNotesBlocks f) f)) (blocks test ending tokens) := by
  rw [blocks, blocks, body_mapPos f (fun _ => rfl) ending tokens]
  rcases body endsBlock ending tokens with fault | ⟨⟨statements, stop⟩, rest, shorter⟩
  · rfl
  dsimp only [carry, Read.mapPos, Prod.map]
  refine carry_ite (fun _ => rfl) fun _ => carry_ite (fun _ => rfl) fun _ => carry_ite (fun _ => ?_) fun _ => ?_
  · rw [blocks_mapPos f .otherwise ending rest]
    rcases blocks .otherwise ending rest with fault | ⟨⟨others, last⟩, tail, fewer⟩ <;> rfl
  · rw [carriesSame_condition f]
    rcases condition ending rest with fault | ⟨next, later, less⟩
    · rfl
    · dsimp only [carry, Read.mapPos]
      rw [id_eq, blocks_mapPos f next ending later]
      rcases blocks next ending later with fault | ⟨⟨others, last⟩, tail, fewer⟩ <;> rfl
termination_by 2 * tokens.length + 1

end

theorem script_mapPos (f : Pos → Pos) (ending : Ending) (tokens : List Token) :
    script (ending.mapPos f) (tokens.map (Token.mapPos f)) = carry f (mapNotesBody f) (script ending tokens) := by
  induction shape : tokens.length using Nat.strongRecOn generalizing tokens with
  | ind length ih =>
      cases tokens with
      | nil =>
          cases ending <;> rw [List.map_nil, Ending.mapPos, script, script] <;> rfl
      | cons head rest =>
          rw [List.map_cons, script, script, statement_mapPos]
          rcases statement true head ending rest with fault | ⟨first, later, shorter⟩
          · rfl
          · have less : later.length < length := shape ▸ Nat.lt_trans shorter (Nat.lt_succ_self _)
            dsimp only [carry, Read.mapPos]
            rw [ih later.length less later rfl]
            cases script ending later <;> rfl

end Parser

/-! ## Checks -/

section Checks

variable (f : Pos → Pos)

theorem checkNames_mapNotes (groups subs : List String) (script : Program) :
    checkNames groups subs (mapNotesBody f script) = carry f id (checkNames groups subs script) := by
  induction script generalizing groups subs with
  | nil => rfl
  | cons statement rest ih =>
      cases statement with
      | group pos group => exact carry_ite (fun _ => rfl) fun _ => ih _ _
      | sub pos name body => exact carry_ite (fun _ => rfl) fun _ => ih _ _
      | _ => exact ih groups subs

theorem groupFault?_mapPos (groups : List String) (pos : Pos) (name : String) :
    groupFault? groups (f pos) name = (groupFault? groups pos name).map (Fault.mapPos f) := by
  unfold groupFault?
  split <;> rfl

theorem referenceFault?_mapNotes (groups subs : List String) (statement : Statement Pos) :
    referenceFault? groups subs (statement.mapNotes f) =
      (referenceFault? groups subs statement).map (Fault.mapPos f) := by
  cases statement with
  | call pos name =>
      rw [Statement.mapNotes, referenceFault?, referenceFault?]
      split <;> rfl
  | field pos field =>
      rw [Statement.mapNotes, referenceFault?, referenceFault?]
      cases field.groupName? with
      | none => rfl
      | some name => exact groupFault?_mapPos f groups pos name
  | choice pos blocks =>
      rw [Statement.mapNotes, referenceFault?, referenceFault?]
      induction blocks with
      | nil => rfl
      | cons block rest ih =>
          obtain ⟨condition, body⟩ := block
          rw [mapNotesBlocks, List.findSome?_cons, List.findSome?_cons]
          cases condition with
          | group name =>
              dsimp only [Block.condition]
              rw [groupFault?_mapPos]
              cases groupFault? groups pos name with
              | none => exact ih
              | some fault => rfl
          | _ => exact ih
  | _ => rfl

theorem checkReferences_mapNotes (script : Program) :
    checkReferences (mapNotesBody f script) = carry f id (checkReferences script) := by
  unfold checkReferences
  simp only [declaredGroups_mapNotes, declaredSubs_mapNotes, walkBody_mapNotes, List.findSome?_map]
  have same (groups subs : List String) : referenceFault? groups subs ∘ Statement.mapNotes f =
      Option.map (Fault.mapPos f) ∘ referenceFault? groups subs := funext (referenceFault?_mapNotes f groups subs)
  rw [same, ← List.map_findSome?]
  cases (Statement.walkBody script).findSome? _ <;> rfl

theorem callsIn_mapNotes (statements : List (Statement Pos)) :
    callsIn (mapNotesBody f statements) = (callsIn statements).map (Prod.map f id) := by
  have same : callOf? ∘ Statement.mapNotes f = Option.map (Prod.map f id) ∘ callOf? := by
    funext statement
    cases statement <;> rfl
  rw [callsIn, callsIn, walkBody_mapNotes, List.filterMap_map, same, List.map_filterMap]
  rfl

theorem callsOfSub_mapNotes (script : Program) (name : String) :
    callsOfSub (mapNotesBody f script) name = (callsOfSub script name).map (Prod.map f id) := by
  unfold callsOfSub
  rw [map_mapNotesBody, ← List.map_reverse, List.findSome?_map]
  induction script.reverse with
  | nil => rfl
  | cons statement rest ih =>
      cases statement with
      | sub pos declared body =>
          by_cases isName : declared = name
          · simp only [List.findSome?_cons, Function.comp_apply, Statement.mapNotes, if_pos isName, Option.getD_some]
            exact callsIn_mapNotes f body
          · simpa only [List.findSome?_cons, Function.comp_apply, Statement.mapNotes, if_neg isName] using ih
      | _ => exact ih

theorem checkRecursion_mapNotes (script : Program) :
    checkRecursion (mapNotesBody f script) = carry f id (checkRecursion script) := by
  unfold checkRecursion
  simp only [declaredSubs_mapNotes, funext (callsOfSub_mapNotes f script)]
  have sameTarget (call : Pos × String) : (Prod.map f id call).snd = call.snd := rfl
  rw [Search.backEdge?_map sameTarget]
  cases Search.backEdge? (callsOfSub script) Prod.snd _ <;> rfl

theorem unusedSubs_mapNotes (script : Program) : unusedSubs (mapNotesBody f script) = unusedSubs script := by
  have called : (callsIn (mapNotesBody f script)).map Prod.snd = (callsIn script).map Prod.snd := by
    rw [callsIn_mapNotes, List.map_map]
    rfl
  unfold unusedSubs
  rw [called, declaredSubs_mapNotes]

/-- The checks carry places along. -/
theorem check_mapNotes (script : Program) : check (mapNotesBody f script) = carry f id (check script) := by
  unfold check checkDeclarations
  rw [checkNames_mapNotes, checkReferences_mapNotes, checkRecursion_mapNotes, unusedSubs_mapNotes]
  cases checkNames [] [] script with
  | error fault => rfl
  | ok =>
      cases checkReferences script with
      | error fault => rfl
      | ok =>
          cases checkRecursion script with
          | error fault => rfl
          | ok => rfl

end Checks

end MissionGraph.Script
