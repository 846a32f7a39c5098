import Mathlib
import MissionGraph.Proofs.Build.Compiled
import MissionGraph.Proofs.Record.Values

/-!
# Graphs from records

The records of a graph are read back as the nodes of that graph, without groups and zones that list
nothing, and with names in another spelling if the values have been changed in between.
-/

namespace MissionGraph

open Mission (Comm Data Difficulty Factions Message Objective Offer OfferItem)
open Script (isName)

variable {change : Value → Value} {spell : String → String}

def Entry.mapValues (change : Value → Value) (entry : Entry) : Entry :=
  ⟨entry.name, entry.values.map change⟩

def Record.mapValues (change : Value → Value) (record : Record) : Record :=
  { record with entries := record.entries.map (Entry.mapValues change) }

theorem Entry.mapValues_id : Entry.mapValues id = id := by
  funext entry
  rw [Entry.mapValues, List.map_id]
  rfl

theorem mapValues_id : Record.mapValues id = id := by
  funext record
  rw [Record.mapValues, Entry.mapValues_id, List.map_id]
  rfl

theorem Node.mapNames_id : Node.mapNames id = id := by
  funext node
  have same : node.content.mapNames id = node.content := Content.mapNames_eq_self_iff.mpr fun _ _ => rfl
  rw [Node.mapNames, same]
  rfl

/-! ## What comes back of a node -/

/-- The data without the groups and zones that are set but list nothing. -/
def Mission.Data.settled (data : Data) : Data :=
  { data with
    offerGroup := data.offerGroup.filter fun factions => !factions.isEmpty
    hostileGroup := data.hostileGroup.filter fun factions => !factions.isEmpty
    zones := data.zones.filter fun names => !names.isEmpty }

def Content.settled : Content → Content
  | .data values => .data values.settled
  | content => content

def Node.settled (node : Node) : Node :=
  ⟨node.content.settled, node.children⟩

/-- The content has a record, and its offers can be told apart there. -/
def Content.Storable : Content → Prop
  | .data values => ∀ offer ∈ values.offers, offer.Separable
  | .decision _ => True
  | .documentation _ => True
  | .choice _ => False

namespace Content.WellFormed

variable {content : Content}

theorem storable (formed : content.WellFormed) : content.Storable := by
  cases content with
  | data data => exact fun offer listed => Mission.Offer.separable_of_wellFormed (formed.offers offer listed)
  | decision _ => trivial
  | documentation _ => trivial
  | choice _ => exact formed

/-- Nothing is left out of well-formed contents. -/
theorem settled (formed : content.WellFormed) : content.settled = content := by
  cases content with
  | data data =>
      have groups {group : Option Factions} (some_name : ∀ factions ∈ group, Mission.NameList factions.names) :
          (group.filter fun factions => !factions.isEmpty) = group := by
        cases group with
        | none => rfl
        | some factions =>
            have nonempty := (some_name factions rfl).1
            simp [Factions.isEmpty, nonempty]
      have zones : (data.zones.filter fun names => !names.isEmpty) = data.zones := by
        cases isSet : data.zones with
        | none => rfl
        | some names =>
            have nonempty := (formed.zones names isSet).1
            simp [nonempty]
      rw [Content.settled, Data.settled, groups formed.offerGroup, groups formed.hostileGroup, zones]
  | _ => rfl

theorem isName_of_mem_names (formed : content.WellFormed) : ∀ name ∈ content.names, isName name = true := by
  cases content with
  | data data =>
      have inMessage (message : Message) (messageFormed : message.wellFormed = true) :
          ∀ name ∈ message.args, isName name = true := by
        simp only [Message.wellFormed, Bool.and_eq_true, List.all_eq_true] at messageFormed
        exact messageFormed.2
      refine Data.forall_mem_names_iff.mpr ⟨fun factions isSet => (formed.offerGroup factions isSet).2,
        fun factions isSet => (formed.hostileGroup factions isSet).2, fun names isSet => (formed.zones names isSet).2,
        fun message isSet => inMessage message (formed.failure message isSet),
        fun message isSet => inMessage message (formed.reward message isSet), ?_, ?_, ?_⟩
      · intro objective listed
        have objectiveFormed := formed.objectives objective listed
        simp only [Objective.wellFormed, Bool.and_eq_true] at objectiveFormed
        exact List.forall_mem_cons.mpr ⟨objectiveFormed.1, inMessage _ objectiveFormed.2⟩
      · intro offer listed name member
        obtain ⟨item, isItem, isArg⟩ := List.mem_flatMap.mp member
        have offerFormed := formed.offers offer listed
        simp only [Offer.wellFormed, OfferItem.wellFormed, Bool.and_eq_true, List.all_eq_true] at offerFormed
        exact inMessage _ (offerFormed.2 item isItem).1 name isArg
      · intro comm listed
        have commFormed := formed.comms comm listed
        simp only [Comm.wellFormed, Bool.and_eq_true] at commFormed
        exact List.forall_mem_cons.mpr ⟨commFormed.1.1, List.forall_mem_singleton.mpr commFormed.2⟩
  | decision nickname => exact List.forall_mem_singleton.mpr formed
  | documentation text => exact List.forall_mem_singleton.mpr formed
  | choice _ => exact False.elim formed

end Content.WellFormed

namespace Record

variable {id : NodeId} {data : Data}

/-- An entry of the given name is read by the reader, and the value is stored. -/
structure ReadBy {α : Type} (name : String) (reader : ValueReader α) (store : α → Data → Data) : Prop where
  dataChange : ValueReader.dataChange name.toLower = (do return store (← reader))

theorem ReadBy.of {α : Type} {name : String} {reader : ValueReader α} {store : α → Data → Data} (key : String)
    (small : name.toLower = key) (reads : ValueReader.dataChange key = (do return store (← reader))) :
    ReadBy name reader store :=
  ⟨small ▸ reads⟩

theorem readEntry_of_run {α : Type} {entry : Entry} {reader : ValueReader α} {store : α → Data → Data}
    (reads : ReadBy entry.name reader store) {value : α}
    (run : reader.run entry.values = .ok (value, [])) : readEntry id data entry = .ok (store value data) := by
  have readAll : (ValueReader.dataChange entry.name.toLower).readAll entry.values = .ok (store value) := by
    rw [ValueReader.readAll, reads.dataChange, ValueReader.run_bind_ok run]
    rfl
  rw [readEntry, readAll]
  rfl

/-- Reading the entries with changed values takes the first data to the second. -/
def Fills (change : Value → Value) (entries : List Entry) (before after : Data) : Prop :=
  ∀ id, (entries.map (Entry.mapValues change)).foldlM (readEntry id) before = .ok after

theorem Fills.append {first second : List Entry} {before middle after : Data}
    (fillsFirst : Fills change first before middle) (fillsSecond : Fills change second middle after) :
    Fills change (first ++ second) before after := by
  intro id
  rw [List.map_append, List.foldlM_append, fillsFirst id, Success.ok_bind, fillsSecond id]

theorem fills_entry {α : Type} {name : String} {values : List Value} {reader : ValueReader α}
    {store : α → Data → Data} (reads : ReadBy name reader store) {value : α}
    (run : reader.run (values.map change) = .ok (value, [])) (before : Data) :
    Fills change [⟨name, values⟩] before (store value before) := by
  intro id
  have read : readEntry id before (Entry.mapValues change ⟨name, values⟩) = .ok (store value before) :=
    readEntry_of_run reads run
  rw [List.map_singleton, List.foldlM_cons, read]
  rfl

/-- The effect of the entry for a value that may be set. -/
theorem fills_optionalEntry {α : Type} {name : String} {values : α → List Value} {value : Option α}
    {reader : ValueReader α} {store : α → Data → Data} {spelled : α → α} (reads : ReadBy name reader store)
    (run : ∀ inner ∈ value, reader.run ((values inner).map change) = .ok (spelled inner, []))
    (filled : Option α → Data) (stores : ∀ inner, store inner (filled none) = filled (some inner)) :
    Fills change (optionalEntry name values value) (filled none) (filled (value.map spelled)) := by
  cases value with
  | none => exact fun _ => rfl
  | some inner =>
      have fills := fills_entry reads (run inner rfl) (filled none)
      rwa [stores] at fills

/-- The effect of one entry for each value of a list. -/
theorem fills_entries {α : Type} {name : String} {values : α → List Value} {list : List α}
    {reader : ValueReader α} {store : α → Data → Data} {spelled : α → α} (reads : ReadBy name reader store)
    (run : ∀ inner ∈ list, reader.run ((values inner).map change) = .ok (spelled inner, []))
    (filled : List α → Data) (stores : ∀ older inner, store inner (filled older) = filled (older ++ [inner]))
    (older : List α) :
    Fills change (list.map fun inner => ⟨name, values inner⟩) (filled older)
      (filled (older ++ list.map spelled)) := by
  induction list generalizing older with
  | nil =>
      rw [List.map_nil, List.map_nil, List.append_nil]
      exact fun _ => rfl
  | cons inner others ih =>
      have first := fills_entry reads (run inner List.mem_cons_self) (filled older)
      have later := ih (fun other member => run other (List.mem_cons_of_mem _ member)) (older ++ [spelled inner])
      rw [stores] at first
      rw [List.append_assoc, List.singleton_append] at later
      exact first.append later

/-! ## The entries of data -/

theorem readBy_weight : ReadBy "Weight" ValueReader.int fun value data => { data with weight := some value } :=
  .of "weight" (by cbv) rfl

theorem readBy_implemented :
    ReadBy "Implemented" ValueReader.bool fun value data => { data with implemented := value } :=
  .of "implemented" (by cbv) rfl

theorem readBy_offerGroup :
    ReadBy "Offer_group" ValueReader.names fun value data => { data with offerGroup := some ⟨value⟩ } :=
  .of "offer_group" (by cbv) rfl

theorem readBy_hostileGroup :
    ReadBy "Hostile_group" ValueReader.names fun value data => { data with hostileGroup := some ⟨value⟩ } :=
  .of "hostile_group" (by cbv) rfl

theorem readBy_zones :
    ReadBy "allowable_zone_types" ValueReader.names fun value data => { data with zones := some value } :=
  .of "allowable_zone_types" (by cbv) rfl

theorem readBy_difficulty :
    ReadBy "difficulty" ValueReader.difficulty fun value data => { data with difficulty := some value } :=
  .of "difficulty" (by cbv) rfl

theorem readBy_failure :
    ReadBy "Failure_text" ValueReader.message fun value data => { data with failure := some value } :=
  .of "failure_text" (by cbv) rfl

theorem readBy_reward :
    ReadBy "Reward_text" ValueReader.message fun value data => { data with reward := some value } :=
  .of "reward_text" (by cbv) rfl

theorem readBy_objective : ReadBy "objective_text" ValueReader.objective fun value data =>
    { data with objectives := data.objectives ++ [value] } :=
  .of "objective_text" (by cbv) rfl

theorem readBy_offer : ReadBy "offer_text" ValueReader.offer fun value data =>
    { data with offers := data.offers ++ [value] } :=
  .of "offer_text" (by cbv) rfl

theorem readBy_comm : ReadBy "comm_sequence" ValueReader.comm fun value data =>
    { data with comms := data.comms ++ [value] } :=
  .of "comm_sequence" (by cbv) rfl

/-- The entry for names is that of a value that is set, unless no name is listed. -/
theorem namesEntry_eq (name : String) (names : Option (List String)) :
    namesEntry name (names.getD []) = optionalEntry name nameValues (names.filter fun list => !list.isEmpty) := by
  cases names with
  | none => rfl
  | some list =>
      cases list with
      | nil => rfl
      | cons first others => rfl

theorem fills_weight (rereads : Rereads change spell) (value : Option Int32) (filled : Option Int32 → Data)
    (stores : ∀ inner, ({ filled none with weight := some inner } : Data) = filled (some inner)) :
    Fills change (optionalEntry "Weight" (fun weight => [.int weight]) value) (filled none) (filled value) := by
  cases value with
  | none => exact fun _ => rfl
  | some weight =>
      have run : ValueReader.int.run ([Value.int weight].map change) = .ok (weight, []) :=
        ValueReader.run_int rereads weight
      have fills := fills_entry readBy_weight run (filled none)
      rwa [stores] at fills

theorem fills_difficulty {value : Option Difficulty}
    (kept : ∀ inner ∈ value, ∀ number ∈ inner.numbers, KeepsNumber change number)
    (filled : Option Difficulty → Data)
    (stores : ∀ inner, ({ filled none with difficulty := some inner } : Data) = filled (some inner)) :
    Fills change (optionalEntry "difficulty" difficultyValues value) (filled none) (filled value) := by
  cases value with
  | none => exact fun _ => rfl
  | some difficulty =>
      have fills := fills_entry readBy_difficulty (ValueReader.run_difficulty (kept difficulty rfl)) (filled none)
      rwa [stores] at fills

theorem fills_implemented (rereads : Rereads change spell) (value : Bool) (filled : Bool → Data)
    (stores : ({ filled true with implemented := false } : Data) = filled false) :
    Fills change (if value then [] else [⟨"Implemented", [.bool false]⟩]) (filled true) (filled value) := by
  cases value with
  | true => exact fun _ => rfl
  | false =>
      have run : ValueReader.bool.run ([Value.bool false].map change) = .ok (false, []) :=
        ValueReader.run_next _ (by rw [rereads.bool]; rfl)
      have fills := fills_entry readBy_implemented run (filled true)
      rwa [stores] at fills

theorem fills_names {name : String} {store : List String → Data → Data}
    (reads : ReadBy name ValueReader.names store) {names : Option (List String)}
    (kept : ∀ list ∈ names, ∀ text ∈ list, KeepsName change spell text) (filled : Option (List String) → Data)
    (stores : ∀ list, store list (filled none) = filled (some list)) :
    Fills change (namesEntry name (names.getD [])) (filled none)
      (filled ((names.filter fun list => !list.isEmpty).map (List.map spell))) := by
  rw [namesEntry_eq]
  refine fills_optionalEntry reads (fun list isSet => ValueReader.run_names ?_) filled stores
  exact kept list (Option.mem_filter_iff.mp isSet).1

theorem fills_factions {name : String} {store : List String → Data → Data}
    (reads : ReadBy name ValueReader.names store) {group : Option Factions}
    (kept : ∀ factions ∈ group, ∀ text ∈ factions.names, KeepsName change spell text)
    (filled : Option Factions → Data) (stores : ∀ list, store list (filled none) = filled (some ⟨list⟩)) :
    Fills change (namesEntry name ((group.map (·.names)).getD [])) (filled none)
      (filled ((group.filter fun factions => !factions.isEmpty).map (Factions.mapNames spell))) := by
  have keptNames : ∀ list ∈ group.map (·.names), ∀ text ∈ list, KeepsName change spell text := by
    intro list member
    obtain ⟨factions, isSet, rfl⟩ := Option.map_eq_some_iff.mp member
    exact kept factions isSet
  have fills := fills_names reads keptNames (fun names => filled (names.map Factions.mk)) stores
  rwa [Option.filter_map, Option.map_map, Option.map_map] at fills

/-- The data of the entries are the data themselves, settled and in the other spelling. Each part of the
entries sets one value and leaves the others as they are. -/
theorem fills_dataEntries (rereads : Rereads change spell) {data : Data}
    (separable : ∀ offer ∈ data.offers, offer.Separable)
    (keptNames : ∀ name ∈ data.names, KeepsName change spell name)
    (kept : ∀ value ∈ data.numbers, KeepsNumber change value) :
    Fills change (dataEntries data) .empty (data.settled.mapNames spell) := by
  obtain ⟨keptOffering, keptHostile, keptZones, keptFailure, keptReward, keptObjectives, keptOffers, keptComms⟩ :=
    Data.forall_mem_names_iff.mp keptNames
  obtain ⟨weight, implemented, offerGroup, hostileGroup, zones, difficulty, failure, reward, objectives, offers,
    comms⟩ := data
  have keptLimits : ∀ value ∈ difficulty, ∀ number ∈ value.numbers, KeepsNumber change number := by
    rintro value ⟨⟩ number member
    exact kept number (List.mem_append_left _ (by simpa using member))
  have keptTimes : ∀ value ∈ comms, ∀ number ∈ value.numbers, KeepsNumber change number :=
    fun value listed number member =>
      kept number (List.mem_append_right _ (List.mem_flatMap.mpr ⟨value, listed, member⟩))
  let offering := (offerGroup.filter fun factions => !factions.isEmpty).map (Factions.mapNames spell)
  let hostile := (hostileGroup.filter fun factions => !factions.isEmpty).map (Factions.mapNames spell)
  let places := (zones.filter fun names => !names.isEmpty).map (List.map spell)
  let failing := failure.map (Message.mapNames spell)
  let rewarding := reward.map (Message.mapNames spell)
  let goals := objectives.map (Objective.mapNames spell)
  let offered := offers.map (Offer.mapNames spell)
  refine .append ?_ (fills_entries readBy_comm
    (fun value listed => ValueReader.run_comm rereads (keptComms value listed) (keptTimes value listed))
    (⟨weight, implemented, offering, hostile, places, difficulty, failing, rewarding, goals, offered, ·⟩)
    (fun _ _ => rfl) [])
  refine .append ?_ (fills_entries readBy_offer
    (fun value listed => ValueReader.run_offer rereads (keptOffers value listed) (separable value listed))
    (⟨weight, implemented, offering, hostile, places, difficulty, failing, rewarding, goals, ·, []⟩)
    (fun _ _ => rfl) [])
  refine .append ?_ (fills_entries readBy_objective
    (fun value listed => ValueReader.run_objective rereads (keptObjectives value listed))
    (⟨weight, implemented, offering, hostile, places, difficulty, failing, rewarding, ·, [], []⟩)
    (fun _ _ => rfl) [])
  refine .append ?_ (fills_optionalEntry readBy_reward
    (fun value isSet => ValueReader.run_message rereads (keptReward value isSet))
    (⟨weight, implemented, offering, hostile, places, difficulty, failing, ·, [], [], []⟩) (fun _ => rfl))
  refine .append ?_ (fills_optionalEntry readBy_failure
    (fun value isSet => ValueReader.run_message rereads (keptFailure value isSet))
    (⟨weight, implemented, offering, hostile, places, difficulty, ·, none, [], [], []⟩) (fun _ => rfl))
  refine .append ?_ (fills_difficulty keptLimits
    (⟨weight, implemented, offering, hostile, places, ·, none, none, [], [], []⟩) (fun _ => rfl))
  refine .append ?_ (fills_names readBy_zones keptZones
    (⟨weight, implemented, offering, hostile, ·, none, none, none, [], [], []⟩) (fun _ => rfl))
  refine .append ?_ (fills_factions readBy_hostileGroup keptHostile
    (⟨weight, implemented, offering, ·, none, none, none, none, [], [], []⟩) (fun _ => rfl))
  refine .append ?_ (fills_factions readBy_offerGroup keptOffering
    (⟨weight, implemented, ·, none, none, none, none, none, [], [], []⟩) (fun _ => rfl))
  refine .append ?_ (fills_implemented rereads implemented
    (⟨weight, ·, none, none, none, none, none, none, [], [], []⟩) rfl)
  exact fills_weight rereads weight (⟨·, true, none, none, none, none, none, none, [], [], []⟩) (fun _ => rfl)

/-- An entry that is read has been used up by the reader for its name. -/
theorem run_of_readEntry {α : Type} {name : String} {values : List Value} {reader : ValueReader α}
    {store : α → Data → Data} (reads : ReadBy name reader store) {after : Data}
    (success : readEntry id data ⟨name, values⟩ = .ok after) :
    ∃ result, reader.run values = .ok result := by
  rw [readEntry, ValueReader.readAll, reads.dataChange] at success
  cases run : (do return store (← reader) : ValueReader (Data → Data)).run values with
  | error fault =>
      rw [run] at success
      cases success
  | ok result =>
      obtain ⟨value, later, readValue, _⟩ := ValueReader.of_run_bind_ok run
      exact ⟨_, readValue⟩

/-- Data are read back only if all their numbers are numbers still. -/
theorem isSome_float?_of_readData {after : Data}
    (success : readData id ((dataEntries data).map (Entry.mapValues change)) = .ok after) :
    ∀ value ∈ data.numbers, ((change (.float value)).float?).isSome = true := by
  have runs {α : Type} {name : String} {values : List Value} {reader : ValueReader α} {store : α → Data → Data}
      (reads : ReadBy name reader store) (member : ⟨name, values⟩ ∈ dataEntries data) :
      ∃ result, reader.run (values.map change) = .ok result := by
    have changed : Entry.mapValues change ⟨name, values⟩ ∈ (dataEntries data).map (Entry.mapValues change) :=
      List.mem_map.mpr ⟨_, member, rfl⟩
    obtain ⟨_, _, read⟩ := Success.exists_of_foldlM_eq_ok success changed
    exact run_of_readEntry reads read
  intro value member
  rcases List.mem_append.mp member with inDifficulty | inComms
  · obtain ⟨difficulty, isSet, inNumbers⟩ := List.mem_flatMap.mp inDifficulty
    rw [Option.mem_toList] at isSet
    have listed : ⟨"difficulty", difficultyValues difficulty⟩ ∈ dataEntries data := by
      simp [dataEntries, optionalEntry, Option.mem_def.mp isSet]
    obtain ⟨_, run⟩ := runs readBy_difficulty listed
    exact ValueReader.isSome_float?_of_difficulty run value inNumbers
  · obtain ⟨comm, isComm, inNumbers⟩ := List.mem_flatMap.mp inComms
    have listed : ⟨"comm_sequence", commValues comm⟩ ∈ dataEntries data :=
      List.mem_append_right _ (List.mem_map.mpr ⟨comm, isComm, rfl⟩)
    obtain ⟨_, run⟩ := runs readBy_comm listed
    exact ValueReader.isSome_float?_of_comm run value inNumbers

/-! ## Records -/

theorem readSingle_of_name {name text : String} (kept : KeepsName change spell text) :
    readSingle id name [Entry.mapValues change ⟨name, [.name text]⟩] = .ok (spell text) := by
  have read : readNamed id name (Entry.mapValues change ⟨name, [.name text]⟩) = .ok (spell text) := by
    have run : ValueReader.name.run ([Value.name text].map change) = .ok (spell text, []) :=
      ValueReader.run_name kept
    rw [readNamed, Entry.mapValues, if_pos ((Text.sameLetters_iff _ _).mpr rfl), ValueReader.readAll, run]
    rfl
  rw [readSingle, List.foldlM_cons, read]
  rfl

/-- The record of a node with changed values is read as the node, settled and in the other spelling. -/
theorem node_mapValues (rereads : Rereads change spell) {node : Node} (storable : node.content.Storable)
    (keptNames : ∀ name ∈ node.content.names, KeepsName change spell name)
    (kept : ∀ value ∈ node.content.numbers, KeepsNumber change value) {record : Record}
    (isRecord : ofNode? id node = some record) :
    (record.mapValues change).node = .ok (node.settled.mapNames spell) := by
  obtain ⟨content, children⟩ := node
  cases content with
  | data data =>
      cases isRecord
      have read : readData id ((dataEntries data).map (Entry.mapValues change)) =
          .ok (data.settled.mapNames spell) :=
        fills_dataEntries rereads storable keptNames kept id
      simp only [Record.mapValues, Record.node, read]
      rfl
  | decision nickname =>
      cases isRecord
      simp only [Record.mapValues, Record.node, List.map_cons, List.map_nil,
        readSingle_of_name (keptNames nickname List.mem_cons_self)]
      rfl
  | documentation text =>
      cases isRecord
      simp only [Record.mapValues, Record.node, List.map_cons, List.map_nil,
        readSingle_of_name (keptNames text List.mem_cons_self)]
      rfl
  | choice conditions => cases isRecord

theorem ofNode?_eq_some (id : NodeId) {node : Node} (storable : node.content.Storable) :
    ∃ record, ofNode? id node = some record ∧ record.id = id ∧ record.children = node.children := by
  obtain ⟨content, children⟩ := node
  cases content with
  | data data => exact ⟨_, rfl, rfl, rfl⟩
  | decision nickname => exact ⟨_, rfl, rfl, rfl⟩
  | documentation text => exact ⟨_, rfl, rfl, rfl⟩
  | choice conditions => exact False.elim storable

end Record

namespace Graph

open Record (ofNode?)

/-- When records are a graph. -/
theorem ofRecords_eq_ok_iff {records : List Record} {loaded : Graph} :
    ofRecords records = .ok loaded ↔
      records.foldlM insertRecord empty = .ok loaded ∧ loaded.contains entry = true ∧
        records.findSome? loaded.missingChild? = none ∧ loaded.findCycle? = none := by
  rw [ofRecords]
  cases records.foldlM insertRecord empty with
  | error fault => exact ⟨nofun, nofun⟩
  | ok graph =>
      simp only [Success.ok_bind]
      cases hasEntry : graph.contains entry with
      | false =>
          constructor
          · intro success
            cases success
          · rintro ⟨⟨⟩, isContained, _⟩
            rw [hasEntry] at isContained
            cases isContained
      | true =>
          cases missing : records.findSome? graph.missingChild? with
          | some fault =>
              constructor
              · intro success
                cases success
              · rintro ⟨⟨⟩, _, noneMissing, _⟩
                rw [missing] at noneMissing
                cases noneMissing
          | none =>
              cases circle : graph.findCycle? with
              | some id =>
                  constructor
                  · intro success
                    cases success
                  · rintro ⟨⟨⟩, _, _, acyclic⟩
                    rw [circle] at acyclic
                    cases acyclic
              | none =>
                  constructor
                  · intro success
                    cases success
                    exact ⟨rfl, hasEntry, missing, circle⟩
                  · rintro ⟨⟨⟩, _⟩
                    rfl

/-- A record is stored if its number is unused and its node can be read. -/
theorem insertRecord_eq_ok_iff {graph loaded : Graph} {record : Record} :
    graph.insertRecord record = .ok loaded ↔
      graph.get? record.id = none ∧ ∃ node, record.node = .ok node ∧ graph.insert record.id node = loaded := by
  rw [insertRecord, contains_eq_isSome]
  cases graph.get? record.id with
  | some node => exact ⟨nofun, nofun⟩
  | none =>
      rw [if_neg (by decide), Success.map_eq_ok_iff]
      exact (and_iff_right rfl).symm

/-- The records of nodes under different numbers are stored one after the other. -/
theorem foldlM_insertRecord (rereads : Rereads change spell) (nodes : List (NodeId × Node)) (graph : Graph)
    (storable : ∀ id node, (id, node) ∈ nodes → node.content.Storable)
    (keptNames : ∀ id node, (id, node) ∈ nodes → ∀ name ∈ node.content.names, KeepsName change spell name)
    (kept : ∀ id node, (id, node) ∈ nodes → ∀ value ∈ node.content.numbers, KeepsNumber change value)
    (different : (nodes.map Prod.fst).Nodup) (unused : ∀ id ∈ nodes.map Prod.fst, graph.get? id = none) :
    ∃ loaded, ((nodes.filterMap fun (id, node) => ofNode? id node).map (Record.mapValues change)).foldlM
        insertRecord graph = .ok loaded ∧
      (∀ id node, (id, node) ∈ nodes → loaded.get? id = some (node.settled.mapNames spell)) ∧
      ∀ id, id ∉ nodes.map Prod.fst → loaded.get? id = graph.get? id := by
  induction nodes generalizing graph with
  | nil => exact ⟨graph, rfl, fun _ _ member => absurd member List.not_mem_nil, fun _ _ => rfl⟩
  | cons first others ih =>
      obtain ⟨id, node⟩ := first
      obtain ⟨notLater, differentLater⟩ := List.nodup_cons.mp different
      have nodeStorable := storable id node List.mem_cons_self
      obtain ⟨record, isRecord, sameId, _⟩ := Record.ofNode?_eq_some id nodeStorable
      have read := Record.node_mapValues rereads nodeStorable (keptNames id node List.mem_cons_self)
        (kept id node List.mem_cons_self) isRecord
      have fresh : graph.get? (record.mapValues change).id = none := by
        rw [Record.mapValues, sameId]
        exact unused id List.mem_cons_self
      have inserted := insertRecord_eq_ok_iff.mpr ⟨fresh, _, read, rfl⟩
      obtain ⟨loaded, success, stored, unchanged⟩ := ih
        (graph.insert (record.mapValues change).id (node.settled.mapNames spell))
        (fun key other member => storable key other (List.mem_cons_of_mem _ member))
        (fun key other member => keptNames key other (List.mem_cons_of_mem _ member))
        (fun key other member => kept key other (List.mem_cons_of_mem _ member)) differentLater (by
          intro key member
          rw [get?_insert_of_ne, unused key (List.mem_cons_of_mem _ member)]
          rintro rfl
          rw [Record.mapValues, sameId] at member
          exact notLater member)
      refine ⟨loaded, ?_, ?_, ?_⟩
      · simp only [List.filterMap_cons, isRecord, List.map_cons, List.foldlM_cons, inserted]
        exact success
      · intro key other member
        rcases List.mem_cons.mp member with same | later
        · cases same
          rw [unchanged id notLater, Record.mapValues, sameId, get?_insert_self]
        · exact stored key other later
      · intro key absent
        rw [List.map_cons, List.mem_cons, not_or] at absent
        rw [unchanged key absent.2, get?_insert_of_ne]
        rw [Record.mapValues, sameId]
        exact fun same => absent.1 same.symm

theorem mem_records_iff {graph : Graph} {record : Record} :
    record ∈ graph.records ↔ ∃ id node, graph.get? id = some node ∧ ofNode? id node = some record := by
  simp only [records, List.mem_filterMap, Prod.exists, mem_toList_iff]

/-- Two graphs with the same nodes up to their contents have the same children. -/
theorem child_congr {graph other : Graph} (same : ∀ id, (other.get? id).map Node.children =
    (graph.get? id).map Node.children) {parent child : NodeId} :
    other.Child parent child ↔ graph.Child parent child := by
  rw [Child, Child, children, children, same]

/-- The records of a proper graph are read back as its nodes, settled and in the other spelling. -/
theorem ofRecords_mapValues_settled (rereads : Rereads change spell) {graph : Graph} (proper : graph.Proper)
    (storable : ∀ id node, graph.get? id = some node → node.content.Storable)
    (keptNames : ∀ id node, graph.get? id = some node → ∀ name ∈ node.content.names, KeepsName change spell name)
    (kept : ∀ id node, graph.get? id = some node → ∀ value ∈ node.content.numbers, KeepsNumber change value) :
    ∃ loaded, ofRecords (graph.records.map (Record.mapValues change)) = .ok loaded ∧
      ∀ id, loaded.get? id = (graph.get? id).map fun node => node.settled.mapNames spell := by
  obtain ⟨loaded, success, stored, unchanged⟩ := foldlM_insertRecord rereads graph.toList .empty
    (fun id node member => storable id node (mem_toList_iff.mp member))
    (fun id node member => keptNames id node (mem_toList_iff.mp member))
    (fun id node member => kept id node (mem_toList_iff.mp member))
    (by rw [map_fst_toList]; exact nodup_ids graph) (fun id _ => get?_empty id)
  have sameNodes (id : NodeId) :
      loaded.get? id = (graph.get? id).map fun node => node.settled.mapNames spell := by
    cases found : graph.get? id with
    | some node => exact stored id node (mem_toList_iff.mpr found)
    | none =>
        rw [unchanged id, get?_empty]
        · rfl
        · rw [map_fst_toList, mem_ids_iff]
          rintro ⟨node, foundNode⟩
          rw [found] at foundNode
          cases foundNode
  have contained (id : NodeId) : loaded.contains id = (graph.get? id).isSome := by
    rw [contains_eq_isSome, sameNodes, Option.isSome_map]
  have sameChildren {parent child : NodeId} : loaded.Child parent child ↔ graph.Child parent child := by
    refine child_congr fun id => ?_
    rw [sameNodes, Option.map_map]
    rfl
  have noneMissing : (graph.records.map (Record.mapValues change)).findSome? loaded.missingChild? = none := by
    rw [List.findSome?_eq_none_iff]
    intro changed member
    obtain ⟨record, isRecord, rfl⟩ := List.mem_map.mp member
    obtain ⟨id, node, found, ofNode⟩ := mem_records_iff.mp isRecord
    obtain ⟨_, ofNodeAgain, _, sameRecord⟩ := Record.ofNode?_eq_some id (storable id node found)
    rw [ofNode] at ofNodeAgain
    cases ofNodeAgain
    rw [missingChild?, Option.map_eq_none_iff, List.find?_eq_none]
    intro child isChild
    obtain ⟨childNode, foundChild⟩ := proper.closed id child (child_of_get? found (sameRecord ▸ isChild))
    simp [contained, foundChild]
  have acyclic : loaded.findCycle? = none := by
    rw [findCycle?_eq_none_iff]
    intro id circle
    exact proper.acyclic id (Relation.TransGen.mono (fun _ _ edge => sameChildren.mp edge) _ _ circle)
  obtain ⟨entryNode, foundEntry⟩ := proper.entry
  have hasEntry : loaded.contains entry = true := by
    rw [contained, foundEntry]
    rfl
  exact ⟨loaded, ofRecords_eq_ok_iff.mpr ⟨success, hasEntry, noneMissing, acyclic⟩, sameNodes⟩

/-- The records of a proper graph of well-formed nodes are read back as its nodes, but for the spelling. -/
theorem ofRecords_mapValues (rereads : Rereads change spell) {graph : Graph} (proper : graph.Proper)
    (formed : ∀ id node, graph.get? id = some node → node.content.WellFormed)
    (kept : ∀ id node, graph.get? id = some node → ∀ value ∈ node.content.numbers, KeepsNumber change value) :
    ∃ loaded, ofRecords (graph.records.map (Record.mapValues change)) = .ok loaded ∧
      ∀ id, loaded.get? id = (graph.get? id).map (Node.mapNames spell) := by
  obtain ⟨loaded, success, sameNodes⟩ := ofRecords_mapValues_settled rereads proper
    (fun id node found => (formed id node found).storable)
    (fun id node found name member => rereads.name name ((formed id node found).isName_of_mem_names name member)) kept
  refine ⟨loaded, success, fun id => (sameNodes id).trans ?_⟩
  cases found : graph.get? id with
  | none => rfl
  | some node => rw [Option.map_some, Option.map_some, Node.settled, (formed id node found).settled]

/-- Records are read back only if all numbers are numbers still. -/
theorem isSome_float?_of_ofRecords {graph loaded : Graph}
    (success : ofRecords (graph.records.map (Record.mapValues change)) = .ok loaded) {id : NodeId} {node : Node}
    (found : graph.get? id = some node) :
    ∀ value ∈ node.content.numbers, ((change (.float value)).float?).isSome = true := by
  obtain ⟨content, children⟩ := node
  cases content with
  | data data =>
      have listed : Record.mk .data id (Record.dataEntries data) children ∈ graph.records :=
        mem_records_iff.mpr ⟨id, _, found, rfl⟩
      obtain ⟨before, after, inserted⟩ := Success.exists_of_foldlM_eq_ok (ofRecords_eq_ok_iff.mp success).1
        (List.mem_map.mpr ⟨_, listed, rfl⟩)
      obtain ⟨_, read, isNode, _⟩ := insertRecord_eq_ok_iff.mp inserted
      obtain ⟨read, isContent, _⟩ := Success.bind_eq_ok_iff.mp isNode
      obtain ⟨read, isData, _⟩ := Success.map_eq_ok_iff.mp isContent
      exact Record.isSome_float?_of_readData isData
  | decision _ => exact fun _ member => absurd member List.not_mem_nil
  | documentation _ => exact fun _ member => absurd member List.not_mem_nil
  | choice _ => exact fun _ member => absurd member List.not_mem_nil

/-- The records of a proper graph are read back as the same nodes. -/
theorem ofRecords_records {graph : Graph} (proper : graph.Proper)
    (formed : ∀ id node, graph.get? id = some node → node.content.WellFormed) :
    ∃ loaded, ofRecords graph.records = .ok loaded ∧ loaded.nodes = graph.nodes := by
  obtain ⟨loaded, success, sameNodes⟩ := ofRecords_mapValues .refl proper formed fun _ _ _ _ _ => rfl
  rw [mapValues_id, List.map_id] at success
  rw [Node.mapNames_id] at sameNodes
  refine ⟨loaded, success, Std.ExtTreeMap.ext_getElem? fun {id} => (sameNodes id).trans ?_⟩
  rw [Option.map_id]
  rfl

end Graph

end MissionGraph
