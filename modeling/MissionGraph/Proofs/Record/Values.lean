import MissionGraph.Proofs.Record.Spelling
import MissionGraph.Proofs.Success
import MissionGraph.Record.Decode
import MissionGraph.Record.Encode

/-!
# Reading the values of entries

The values that are written for a piece of data are read back as that piece, also if every value has
been changed in between into one that is taken for the same number or for the same name in another
spelling.
-/

namespace MissionGraph

open Mission (Comm Data Difficulty Message Objective Offer OfferItem OfferMode Party Plurality)
open Number (Single)
open Script (isName)

/-- What a change must leave of the values: whole numbers and truth values, and names up to the letter
case. -/
structure Rereads (change : Value → Value) (spell : String → String) : Prop where
  int : ∀ value, change (.int value) = .int value
  bool : ∀ value, change (.bool value) = .bool value
  name : ∀ text, isName text = true → (change (.name text)).name? = some (spell text)
  letters : ∀ text, (spell text).toLower = text.toLower

/-- The change keeps a number that need not be whole. -/
def KeepsNumber (change : Value → Value) (value : Single) : Prop :=
  (change (.float value)).float? = some value

/-- The change keeps a name, up to the spelling in which names come back. -/
def KeepsName (change : Value → Value) (spell : String → String) (text : String) : Prop :=
  (change (.name text)).name? = some (spell text)

theorem Rereads.refl : Rereads id id where
  int := fun _ => rfl
  bool := fun _ => rfl
  name := fun _ _ => rfl
  letters := fun _ => rfl

/-- Keywords are recognised in any letter case. -/
theorem Mission.ofWord?_congr {α : Type} (word : α → String) (values : List α) {first second : String}
    (letters : first.toLower = second.toLower) : ofWord? word values first = ofWord? word values second := by
  simp only [ofWord?, Text.sameLetters, letters]

/-- The words that mark a plurality. -/
theorem Mission.ofMarker?_eq_none_iff {text : String} :
    Plurality.ofMarker? text = none ↔
      Text.sameLetters text "singular" = false ∧ Text.sameLetters text "plural" = false := by
  have turned (first second : String) : Text.sameLetters first second = Text.sameLetters second first := by
    rw [Bool.eq_iff_iff, Text.sameLetters_iff, Text.sameLetters_iff, eq_comm]
  simp [Plurality.ofMarker?, ofWord?, Plurality.word, turned text]

/-- The items of the offer can be told apart where their values stand one after the other: there is an item,
and no name in one is a word for the plurality of the next. -/
def Mission.Offer.Separable (offer : Offer) : Prop :=
  offer.items ≠ [] ∧ ∀ item ∈ offer.items, ∀ arg ∈ item.message.args,
    Text.sameLetters arg "singular" = false ∧ Text.sameLetters arg "plural" = false

theorem Mission.Offer.separable_of_wellFormed {offer : Offer} (formed : offer.wellFormed = true) :
    offer.Separable := by
  simp only [Offer.wellFormed, Bool.and_eq_true, Bool.not_eq_true', List.isEmpty_eq_false_iff,
    List.all_eq_true] at formed
  refine ⟨formed.1, fun item listed arg member => ofMarker?_eq_none_iff.mp ?_⟩
  have itemFormed := formed.2 item listed
  simp only [OfferItem.wellFormed, Bool.and_eq_true, List.all_eq_true] at itemFormed
  exact Option.isNone_iff_eq_none.mp (itemFormed.2 arg member)

namespace ValueReader

variable {change : Value → Value} {spell : String → String} {rest : List Value}

theorem run_next {α : Type} (sort : ValueSort) {read? : Value → Option α} {value : Value} {result : α}
    (read : read? value = some result) : (next sort read?).run (value :: rest) = .ok (result, rest) := by
  simp [next, read]
  rfl

theorem run_int (rereads : Rereads change spell) (value : Int32) :
    int.run (change (.int value) :: rest) = .ok (value, rest) :=
  run_next _ (by rw [rereads.int]; rfl)

theorem run_float {value : Single} (kept : KeepsNumber change value) :
    float.run (change (.float value) :: rest) = .ok (value, rest) :=
  run_next _ kept

theorem run_name {text : String} (kept : KeepsName change spell text) :
    name.run (change (.name text) :: rest) = .ok (spell text, rest) :=
  run_next _ kept

theorem run_bind_ok {α β : Type} {reader : ValueReader α} {next : α → ValueReader β} {value : α}
    {values : List Value} (read : reader.run values = .ok (value, rest)) :
    (reader >>= next).run values = (next value).run rest := by
  rw [StateT.run_bind, read]
  rfl

theorem run_keyword {α : Type} (rereads : Rereads change spell) {word : α → String} {values : List α} {value : α}
    (named : isName (word value) = true) (known : Mission.ofWord? word values (word value) = some value) :
    (keyword (Mission.ofWord? word values)).run (change (.name (word value)) :: rest) = .ok (value, rest) := by
  rw [keyword, run_bind_ok (run_name (rereads.name _ named)), Mission.ofWord?_congr word values (rereads.letters _), known]
  rfl

theorem allNames_map {texts : List String} (kept : ∀ text ∈ texts, KeepsName change spell text) :
    allNames ((Record.nameValues texts).map change) = .ok (texts.map spell) := by
  induction texts with
  | nil => rfl
  | cons text others ih =>
      have first : (change (.name text)).name? = some (spell text) := kept text List.mem_cons_self
      have later := ih fun other member => kept other (List.mem_cons_of_mem _ member)
      simp only [Record.nameValues, List.map_cons, allNames, first] at later ⊢
      rw [later]
      rfl

theorem run_names {texts : List String} (kept : ∀ text ∈ texts, KeepsName change spell text) :
    names.run ((Record.nameValues texts).map change) = .ok (texts.map spell, []) := by
  simp only [names, StateT.run_bind, StateT.run_get, StateT.run_monadLift, allNames_map kept, pure_bind]
  rfl

theorem run_message (rereads : Rereads change spell) {message : Message}
    (kept : ∀ name ∈ message.args, KeepsName change spell name) :
    ValueReader.message.run ((Record.messageValues message).map change) = .ok (message.mapNames spell, []) := by
  rw [ValueReader.message, Record.messageValues, List.map_cons, run_bind_ok (run_int rereads _),
    run_bind_ok (run_names kept)]
  rfl

theorem run_objective (rereads : Rereads change spell) {objective : Objective}
    (kept : ∀ name ∈ objective.names, KeepsName change spell name) :
    ValueReader.objective.run ((Record.objectiveValues objective).map change) =
      .ok (objective.mapNames spell, []) := by
  obtain ⟨keptTarget, keptArgs⟩ := List.forall_mem_cons.mp kept
  rw [ValueReader.objective, Record.objectiveValues, List.map_cons, run_bind_ok (run_name keptTarget),
    run_bind_ok (run_message rereads keptArgs)]
  rfl

theorem run_difficulty {difficulty : Difficulty} (kept : ∀ value ∈ difficulty.numbers, KeepsNumber change value) :
    ValueReader.difficulty.run ((Record.difficultyValues difficulty).map change) = .ok (difficulty, []) := by
  have lower := kept difficulty.lower (by simp [Difficulty.numbers])
  have upper := kept difficulty.upper (by simp [Difficulty.numbers])
  simp only [ValueReader.difficulty, Record.difficultyValues, List.map_cons, List.map_nil]
  rw [run_bind_ok (run_float lower), run_bind_ok (run_float upper)]
  rfl

theorem Party.ofWord?_word (party : Party) :
    isName party.word = true ∧ Mission.ofWord? Party.word [.none, .player, .target, .friendly, .hostile, .base]
      party.word = some party := by
  cases party <;> exact ⟨by decide, by decide +kernel⟩

theorem run_comm (rereads : Rereads change spell) {comm : Comm}
    (keptNames : ∀ name ∈ comm.names, KeepsName change spell name)
    (kept : ∀ value ∈ comm.numbers, KeepsNumber change value) :
    ValueReader.comm.run ((Record.commValues comm).map change) = .ok (comm.mapNames spell, []) := by
  have event := keptNames comm.event (by simp [Comm.names])
  have said := keptNames comm.comm (by simp [Comm.names])
  have first := kept comm.first (by simp [Comm.numbers])
  have second := kept comm.second (by simp [Comm.numbers])
  have third := kept comm.third (by simp [Comm.numbers])
  have party (one : Party) {later : List Value} :
      (keyword Party.ofWord?).run (change (.name one.word) :: later) = .ok (one, later) :=
    run_keyword rereads (Party.ofWord?_word one).1 (Party.ofWord?_word one).2
  simp only [ValueReader.comm, Record.commValues, List.map_cons, List.map_nil]
  rw [run_bind_ok (run_name event), run_bind_ok (party _), run_bind_ok (run_float first),
    run_bind_ok (run_float second), run_bind_ok (run_float third), run_bind_ok (party _),
    run_bind_ok (run_name said)]
  rfl

/-! ## Numbers that are no numbers any more -/

theorem of_run_bind_ok {α β : Type} {reader : ValueReader α} {next : α → ValueReader β} {values : List Value}
    {result : β × List Value} (success : (reader >>= next).run values = .ok result) :
    ∃ value later, reader.run values = .ok (value, later) ∧ (next value).run later = .ok result := by
  rw [StateT.run_bind] at success
  obtain ⟨⟨value, later⟩, read, continued⟩ := Success.bind_eq_ok_iff.mp success
  exact ⟨value, later, read, continued⟩

theorem of_run_next_ok {α : Type} {sort : ValueSort} {read? : Value → Option α} {value : Value} {result : α}
    {later : List Value} (success : (next sort read?).run (value :: rest) = .ok (result, later)) :
    read? value = some result ∧ later = rest := by
  cases read : read? value with
  | none =>
      simp [next, read] at success
      cases success
  | some found =>
      rw [run_next sort read] at success
      cases success
      exact ⟨rfl, rfl⟩

theorem of_run_keyword_ok {α : Type} {ofWord? : String → Option α} {value : Value} {result : α} {later : List Value}
    (success : (keyword ofWord?).run (value :: rest) = .ok (result, later)) : later = rest := by
  obtain ⟨word, middle, read, continued⟩ := of_run_bind_ok success
  obtain ⟨_, rfl⟩ := of_run_next_ok read
  split at continued
  · cases continued
    rfl
  · cases continued

/-- Limits are read only from numbers. -/
theorem isSome_float?_of_difficulty {difficulty : Difficulty} {result : Difficulty × List Value}
    (success : ValueReader.difficulty.run ((Record.difficultyValues difficulty).map change) = .ok result) :
    ∀ value ∈ difficulty.numbers, ((change (.float value)).float?).isSome = true := by
  obtain ⟨lower, _, readLower, success⟩ := of_run_bind_ok success
  obtain ⟨isLower, rfl⟩ := of_run_next_ok readLower
  obtain ⟨upper, _, readUpper, _⟩ := of_run_bind_ok success
  obtain ⟨isUpper, _⟩ := of_run_next_ok readUpper
  intro value member
  simp only [Difficulty.numbers, List.mem_cons, List.not_mem_nil, or_false] at member
  rcases member with rfl | rfl
  · rw [isLower]
    rfl
  · rw [isUpper]
    rfl

/-- The timing of a message is read only from numbers. -/
theorem isSome_float?_of_comm {comm : Comm} {result : Comm × List Value}
    (success : ValueReader.comm.run ((Record.commValues comm).map change) = .ok result) :
    ∀ value ∈ comm.numbers, ((change (.float value)).float?).isSome = true := by
  obtain ⟨_, _, readEvent, success⟩ := of_run_bind_ok success
  obtain ⟨_, rfl⟩ := of_run_next_ok readEvent
  obtain ⟨_, _, readHearer, success⟩ := of_run_bind_ok success
  have rest := of_run_keyword_ok readHearer
  subst rest
  obtain ⟨first, _, readFirst, success⟩ := of_run_bind_ok success
  obtain ⟨isFirst, rfl⟩ := of_run_next_ok readFirst
  obtain ⟨second, _, readSecond, success⟩ := of_run_bind_ok success
  obtain ⟨isSecond, rfl⟩ := of_run_next_ok readSecond
  obtain ⟨third, _, readThird, _⟩ := of_run_bind_ok success
  obtain ⟨isThird, _⟩ := of_run_next_ok readThird
  intro value member
  simp only [Comm.numbers, List.mem_cons, List.not_mem_nil, or_false] at member
  rcases member with rfl | rfl | rfl
  · rw [isFirst]
    rfl
  · rw [isSecond]
    rfl
  · rw [isThird]
    rfl

/-! ## Offers -/

theorem marker?_name (rereads : Rereads change spell) {text : String} (kept : KeepsName change spell text) :
    marker? (change (.name text)) = Plurality.ofMarker? text := by
  rw [marker?, show (change (.name text)).name? = some (spell text) from kept]
  exact Mission.ofWord?_congr _ _ (rereads.letters text)

/-- The values are used up, or the next one does not go on with the names of an item. -/
def Stops (values : List Value) : Prop :=
  ∀ first later, values = first :: later → first.name? = none ∨ (marker? first).isSome = true

theorem splitArgs_stops (stops : Stops rest) : splitArgs rest = ([], rest) := by
  cases rest with
  | nil => rfl
  | cons first later =>
      rw [splitArgs]
      rcases stops first later rfl with unnamed | marked
      · rw [unnamed]
        split
        · rename_i name _ isName
          cases isName
        · rfl
      · obtain ⟨plurality, isMarker⟩ := Option.isSome_iff_exists.mp marked
        rw [isMarker]

theorem splitArgs_map (rereads : Rereads change spell) {args : List String}
    (kept : ∀ arg ∈ args, KeepsName change spell arg)
    (unmarked : ∀ arg ∈ args, Plurality.ofMarker? arg = none) (stops : Stops rest) :
    splitArgs ((Record.nameValues args).map change ++ rest) = (args.map spell, rest) := by
  induction args with
  | nil => exact splitArgs_stops stops
  | cons arg others ih =>
      have isArg : (change (.name arg)).name? = some (spell arg) := kept arg List.mem_cons_self
      have later := ih (fun other member => kept other (List.mem_cons_of_mem _ member))
        fun other member => unmarked other (List.mem_cons_of_mem _ member)
      simp only [Record.nameValues, List.map_cons, List.cons_append, splitArgs] at later ⊢
      rw [marker?_name rereads isArg, unmarked arg List.mem_cons_self, isArg]
      simp only [later]

/-- The values of items start with a plurality or a number. -/
theorem stops_items (rereads : Rereads change spell) (items : List OfferItem) :
    Stops ((items.flatMap Record.itemValues).map change) := by
  intro first later isFirst
  cases items with
  | nil => cases isFirst
  | cons item others =>
      obtain ⟨plurality, message⟩ := item
      rw [List.flatMap_cons, Record.itemValues, Record.messageValues] at isFirst
      cases plurality with
      | none =>
          obtain ⟨rfl, _⟩ := List.cons.inj isFirst
          rw [rereads.int]
          exact .inl rfl
      | singular =>
          obtain ⟨rfl, _⟩ := List.cons.inj isFirst
          refine .inr ?_
          rw [marker?_name rereads (rereads.name _ (by decide))]
          decide +kernel
      | plural =>
          obtain ⟨rfl, _⟩ := List.cons.inj isFirst
          refine .inr ?_
          rw [marker?_name rereads (rereads.name _ (by decide))]
          decide +kernel

theorem splitMarker_int (value : Int32) : splitMarker (.int value) rest = (.none, .int value :: rest) :=
  rfl

theorem splitMarker_marker (rereads : Rereads change spell) {plurality : Plurality} {word : String}
    (isMarker : plurality.marker? = some word) :
    splitMarker (change (.name word)) rest = (plurality, rest) := by
  have known : isName word = true ∧ Plurality.ofMarker? word = some plurality := by
    cases plurality <;> cases isMarker <;> exact ⟨by decide, by decide +kernel⟩
  rw [splitMarker, marker?_name rereads (rereads.name _ known.1), known.2]

/-- The values of an item are an item for the reader. -/
theorem offerItems_cons (rereads : Rereads change spell) {item : OfferItem}
    (kept : ∀ arg ∈ item.message.args, KeepsName change spell arg)
    (unmarked : ∀ arg ∈ item.message.args, Plurality.ofMarker? arg = none) (stops : Stops rest) :
    offerItems ((Record.itemValues item).map change ++ rest) =
      (offerItems rest).map (item.mapNames spell :: ·) := by
  obtain ⟨plurality, id, args⟩ := item
  have split := splitArgs_map rereads kept unmarked stops
  have after : ∀ first later, splitMarker first later = (plurality, .int id ::
      ((Record.nameValues args).map change ++ rest)) →
      offerItems (first :: later) =
        (offerItems rest).map (OfferItem.mapNames spell ⟨plurality, id, args⟩ :: ·) := by
    intro first later marked
    rw [offerItems]
    split
    · rename_i missing
      rw [marked] at missing
      cases missing
    · rename_i same
      rw [marked] at same
      cases same
      simp only [Value.int?, split]
      rfl
  cases isMarker : plurality.marker? with
  | none =>
      cases plurality with
      | none =>
          have values : (Record.itemValues ⟨.none, id, args⟩).map change ++ rest =
              .int id :: ((Record.nameValues args).map change ++ rest) := by
            simp [Record.itemValues, Record.messageValues, Plurality.marker?, Record.nameValues, rereads.int]
          rw [values]
          exact after _ _ (splitMarker_int id)
      | singular => cases isMarker
      | plural => cases isMarker
  | some word =>
      have values : (Record.itemValues ⟨plurality, id, args⟩).map change ++ rest =
          change (.name word) :: .int id :: ((Record.nameValues args).map change ++ rest) := by
        simp [Record.itemValues, Record.messageValues, isMarker, Record.nameValues, rereads.int]
      rw [values]
      exact after _ _ (splitMarker_marker rereads isMarker)

theorem offerItems_map (rereads : Rereads change spell) {items : List OfferItem}
    (kept : ∀ item ∈ items, ∀ arg ∈ item.message.args, KeepsName change spell arg)
    (unmarked : ∀ item ∈ items, ∀ arg ∈ item.message.args, Plurality.ofMarker? arg = none) :
    offerItems ((items.flatMap Record.itemValues).map change) = .ok (items.map (OfferItem.mapNames spell)) := by
  induction items with
  | nil => simp [offerItems]
  | cons item others ih =>
      rw [List.flatMap_cons, List.map_append,
        offerItems_cons rereads (kept item List.mem_cons_self) (unmarked item List.mem_cons_self)
          (stops_items rereads others),
        ih (fun other member => kept other (List.mem_cons_of_mem _ member))
          fun other member => unmarked other (List.mem_cons_of_mem _ member)]
      rfl

theorem OfferMode.ofWord?_word (mode : OfferMode) :
    isName mode.word = true ∧ Mission.ofWord? OfferMode.word [.append, .replace] mode.word = some mode := by
  cases mode <;> exact ⟨by decide, by decide +kernel⟩

theorem run_offer (rereads : Rereads change spell) {offer : Offer}
    (kept : ∀ name ∈ offer.names, KeepsName change spell name) (separable : offer.Separable) :
    ValueReader.offer.run ((Record.offerValues offer).map change) = .ok (offer.mapNames spell, []) := by
  obtain ⟨mode, items⟩ := offer
  obtain ⟨nonempty, unmarked⟩ := separable
  dsimp only at nonempty unmarked
  have readMode {later : List Value} : (keyword OfferMode.ofWord?).run (change (.name mode.word) :: later) =
      .ok (mode, later) :=
    run_keyword rereads (OfferMode.ofWord?_word mode).1 (OfferMode.ofWord?_word mode).2
  have readItems := offerItems_map rereads
    (fun item listed arg member => kept arg (List.mem_flatMap.mpr ⟨item, listed, member⟩))
    fun item listed arg member => Mission.ofMarker?_eq_none_iff.mpr (unmarked item listed arg member)
  rw [ValueReader.offer, Record.offerValues, List.map_cons, run_bind_ok readMode]
  simp [readItems, nonempty]
  rfl

end ValueReader

end MissionGraph
