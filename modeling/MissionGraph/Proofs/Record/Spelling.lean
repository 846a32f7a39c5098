import MissionGraph.Graph.Basic
import MissionGraph.Proofs.Script.WellFormed

/-!
# The names in a node

The names that a node holds, and what becomes of the node if its names are spelled differently.
-/

namespace MissionGraph

open Number (Single)

namespace Mission

variable (spell : String → String)

namespace Message

def mapNames (message : Message) : Message :=
  ⟨message.id, message.args.map spell⟩

end Message

namespace Objective

def mapNames (objective : Objective) : Objective :=
  ⟨spell objective.target, objective.message.mapNames spell⟩

def names (objective : Objective) : List String :=
  objective.target :: objective.message.args

end Objective

namespace OfferItem

def mapNames (item : OfferItem) : OfferItem :=
  ⟨item.plurality, item.message.mapNames spell⟩

end OfferItem

namespace Offer

def mapNames (offer : Offer) : Offer :=
  ⟨offer.mode, offer.items.map (OfferItem.mapNames spell)⟩

def names (offer : Offer) : List String :=
  offer.items.flatMap fun item => item.message.args

end Offer

namespace Comm

def mapNames (comm : Comm) : Comm :=
  { comm with event := spell comm.event, comm := spell comm.comm }

def names (comm : Comm) : List String :=
  [comm.event, comm.comm]

end Comm

namespace Factions

def mapNames (factions : Factions) : Factions :=
  ⟨factions.names.map spell⟩

end Factions

namespace Data

/-- The data with all names in another spelling. -/
def mapNames (data : Data) : Data :=
  { data with
    offerGroup := data.offerGroup.map (Factions.mapNames spell)
    hostileGroup := data.hostileGroup.map (Factions.mapNames spell)
    zones := data.zones.map (List.map spell)
    failure := data.failure.map (Message.mapNames spell)
    reward := data.reward.map (Message.mapNames spell)
    objectives := data.objectives.map (Objective.mapNames spell)
    offers := data.offers.map (Offer.mapNames spell)
    comms := data.comms.map (Comm.mapNames spell) }

/-- All names in the data. -/
def names (data : Data) : List String :=
  data.offerGroup.toList.flatMap Factions.names ++ data.hostileGroup.toList.flatMap Factions.names
    ++ data.zones.toList.flatten ++ data.failure.toList.flatMap Message.args
    ++ data.reward.toList.flatMap Message.args ++ data.objectives.flatMap Objective.names
    ++ data.offers.flatMap Offer.names ++ data.comms.flatMap Comm.names

/-- The numbers in the data that need not be whole. -/
def numbers (data : Data) : List Single :=
  data.difficulty.toList.flatMap Difficulty.numbers ++ data.comms.flatMap Comm.numbers

/-- All names in the data, part by part. -/
theorem forall_mem_names_iff {data : Data} {holds : String → Prop} :
    (∀ name ∈ data.names, holds name) ↔
      (∀ factions ∈ data.offerGroup, ∀ name ∈ factions.names, holds name) ∧
      (∀ factions ∈ data.hostileGroup, ∀ name ∈ factions.names, holds name) ∧
      (∀ names ∈ data.zones, ∀ name ∈ names, holds name) ∧
      (∀ message ∈ data.failure, ∀ name ∈ message.args, holds name) ∧
      (∀ message ∈ data.reward, ∀ name ∈ message.args, holds name) ∧
      (∀ objective ∈ data.objectives, ∀ name ∈ objective.names, holds name) ∧
      (∀ offer ∈ data.offers, ∀ name ∈ offer.names, holds name) ∧
      ∀ comm ∈ data.comms, ∀ name ∈ comm.names, holds name := by
  simp only [names, List.forall_mem_append, List.forall_mem_flatMap, List.forall_mem_flatten, Option.mem_toList,
    Option.mem_def, and_assoc]

end Data

variable {spell}

theorem map_eq_self_iff {α : Type} {change : α → α} {values : List α} :
    values.map change = values ↔ ∀ value ∈ values, change value = value := by
  have same := List.map_inj_left (l := values) (f := change) (g := id)
  rwa [List.map_id] at same

theorem Message.mapNames_eq_self_iff {message : Message} :
    message.mapNames spell = message ↔ ∀ name ∈ message.args, spell name = name := by
  obtain ⟨id, args⟩ := message
  simp [Message.mapNames, map_eq_self_iff]

theorem Objective.mapNames_eq_self_iff {objective : Objective} :
    objective.mapNames spell = objective ↔ ∀ name ∈ objective.names, spell name = name := by
  obtain ⟨target, message⟩ := objective
  simp [Objective.mapNames, Objective.names, Message.mapNames_eq_self_iff]

theorem OfferItem.mapNames_eq_self_iff {item : OfferItem} :
    item.mapNames spell = item ↔ ∀ name ∈ item.message.args, spell name = name := by
  obtain ⟨plurality, message⟩ := item
  simp [OfferItem.mapNames, Message.mapNames_eq_self_iff]

theorem Offer.mapNames_eq_self_iff {offer : Offer} :
    offer.mapNames spell = offer ↔ ∀ name ∈ offer.names, spell name = name := by
  obtain ⟨mode, items⟩ := offer
  simp only [Offer.mapNames, Offer.names, map_eq_self_iff, OfferItem.mapNames_eq_self_iff, Offer.mk.injEq,
    List.mem_flatMap, true_and]
  grind

theorem Comm.mapNames_eq_self_iff {comm : Comm} :
    comm.mapNames spell = comm ↔ ∀ name ∈ comm.names, spell name = name := by
  obtain ⟨event, hearer, first, second, third, speaker, said⟩ := comm
  simp [Comm.mapNames, Comm.names]

theorem Factions.mapNames_eq_self_iff {factions : Factions} :
    factions.mapNames spell = factions ↔ ∀ name ∈ factions.names, spell name = name := by
  obtain ⟨names⟩ := factions
  simp [Factions.mapNames, map_eq_self_iff]

/-- A value that is set is unchanged if all names in it are. -/
theorem optional_unchanged_iff {α : Type} (spell : String → String) {change : α → α} {names : α → List String}
    (same : ∀ value, change value = value ↔ ∀ name ∈ names value, spell name = name) (value : Option α) :
    value.map change = value ↔ ∀ name ∈ value.toList.flatMap names, spell name = name := by
  cases value <;> simp [same]

/-- A list is unchanged if all names in its values are. -/
theorem flatMap_unchanged_iff {α : Type} (spell : String → String) {change : α → α} {names : α → List String}
    (same : ∀ value, change value = value ↔ ∀ name ∈ names value, spell name = name) (values : List α) :
    values.map change = values ↔ ∀ name ∈ values.flatMap names, spell name = name := by
  rw [map_eq_self_iff]
  simp only [same, List.mem_flatMap]
  grind

/-- Data are unchanged in another spelling if all names in them are. -/
theorem Data.mapNames_eq_self_iff {data : Data} :
    data.mapNames spell = data ↔ ∀ name ∈ data.names, spell name = name := by
  obtain ⟨weight, implemented, offerGroup, hostileGroup, zones, difficulty, failure, reward, objectives, offers,
    comms⟩ := data
  have factionsSame (group : Option Factions) : group.map (Factions.mapNames spell) = group ↔
      ∀ name ∈ group.toList.flatMap Factions.names, spell name = name :=
    optional_unchanged_iff spell (fun _ => Factions.mapNames_eq_self_iff) group
  have zonesSame : zones.map (List.map spell) = zones ↔ ∀ name ∈ zones.toList.flatten, spell name = name := by
    cases zones <;> simp [map_eq_self_iff]
  have messageSame (message : Option Message) : message.map (Message.mapNames spell) = message ↔
      ∀ name ∈ message.toList.flatMap Message.args, spell name = name :=
    optional_unchanged_iff spell (fun _ => Message.mapNames_eq_self_iff) message
  have objectivesSame : objectives.map (Objective.mapNames spell) = objectives ↔
      ∀ name ∈ objectives.flatMap Objective.names, spell name = name :=
    flatMap_unchanged_iff spell (fun _ => Objective.mapNames_eq_self_iff) objectives
  have offersSame : offers.map (Offer.mapNames spell) = offers ↔
      ∀ name ∈ offers.flatMap Offer.names, spell name = name :=
    flatMap_unchanged_iff spell (fun _ => Offer.mapNames_eq_self_iff) offers
  have commsSame : comms.map (Comm.mapNames spell) = comms ↔
      ∀ name ∈ comms.flatMap Comm.names, spell name = name :=
    flatMap_unchanged_iff spell (fun _ => Comm.mapNames_eq_self_iff) comms
  simp only [Data.mapNames, Data.names, Data.mk.injEq, List.forall_mem_append, true_and, and_assoc,
    factionsSame, zonesSame, messageSame, objectivesSame, offersSame, commsSame]

end Mission

namespace Content

/-- The content with all names in another spelling. -/
def mapNames (spell : String → String) : Content → Content
  | .data values => .data (values.mapNames spell)
  | .decision nickname => .decision (spell nickname)
  | .documentation text => .documentation (spell text)
  | .choice conditions => .choice conditions

/-- All names in the content. -/
def names : Content → List String
  | .data values => values.names
  | .decision nickname => [nickname]
  | .documentation text => [text]
  | .choice _ => []

/-- The numbers in the content that need not be whole. -/
def numbers : Content → List Single
  | .data values => values.numbers
  | _ => []

theorem mapNames_eq_self_iff {spell : String → String} {content : Content} :
    content.mapNames spell = content ↔ ∀ name ∈ content.names, spell name = name := by
  cases content <;> simp [mapNames, names, Mission.Data.mapNames_eq_self_iff]

end Content

/-- The node with all names in another spelling. -/
def Node.mapNames (spell : String → String) (node : Node) : Node :=
  ⟨node.content.mapNames spell, node.children⟩

end MissionGraph
