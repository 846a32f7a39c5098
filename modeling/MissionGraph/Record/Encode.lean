import MissionGraph.Record.Basic

/-!
# From a graph to records

Every node but a joined choice becomes a record. Entries stand in a fixed order; values that are not
set, and lists of names that are empty, are left out.
-/

namespace MissionGraph

open Mission (Comm Data Difficulty Message Objective Offer OfferItem)

namespace Record

def nameValues (names : List String) : List Value :=
  names.map .name

def messageValues (message : Message) : List Value :=
  .int message.id :: nameValues message.args

def objectiveValues (objective : Objective) : List Value :=
  .name objective.target :: messageValues objective.message

def itemValues (item : OfferItem) : List Value :=
  nameValues item.plurality.marker?.toList ++ messageValues item.message

def offerValues (offer : Offer) : List Value :=
  .name offer.mode.word :: offer.items.flatMap itemValues

def commValues (comm : Comm) : List Value :=
  [.name comm.event, .name comm.target.word, .float comm.first, .float comm.second,
    .float comm.third, .name comm.source.word, .name comm.comm]

def difficultyValues (difficulty : Difficulty) : List Value :=
  [.float difficulty.lower, .float difficulty.upper]

/-- An entry for a list of names, unless it is empty. -/
def namesEntry (name : String) (names : List String) : List Entry :=
  if names.isEmpty then [] else [⟨name, nameValues names⟩]

/-- An entry for a value that is set. -/
def optionalEntry {α : Type} (name : String) (values : α → List Value) (value : Option α) : List Entry :=
  (value.map fun value => Entry.mk name (values value)).toList

def dataEntries (data : Data) : List Entry :=
  optionalEntry "Weight" (fun weight => [.int weight]) data.weight
    ++ (if data.implemented then [] else [⟨"Implemented", [.bool false]⟩])
    ++ namesEntry "Offer_group" ((data.offerGroup.map (·.names)).getD [])
    ++ namesEntry "Hostile_group" ((data.hostileGroup.map (·.names)).getD [])
    ++ namesEntry "allowable_zone_types" (data.zones.getD [])
    ++ optionalEntry "difficulty" difficultyValues data.difficulty
    ++ optionalEntry "Failure_text" messageValues data.failure
    ++ optionalEntry "Reward_text" messageValues data.reward
    ++ data.objectives.map (fun objective => ⟨"objective_text", objectiveValues objective⟩)
    ++ data.offers.map (fun offer => ⟨"offer_text", offerValues offer⟩)
    ++ data.comms.map (fun comm => ⟨"comm_sequence", commValues comm⟩)

/-- The record of a node. -/
def ofNode? (id : NodeId) (node : Node) : Option Record :=
  match node.content with
  | .data data => some ⟨.data, id, dataEntries data, node.children⟩
  | .decision nickname => some ⟨.decision, id, [⟨"nickname", [.name nickname]⟩], node.children⟩
  | .documentation text =>
      some ⟨.documentation, id, [⟨"documentation", [.name text]⟩], node.children⟩
  | .choice _ => none

end Record

/-- The records of a graph in ascending order of the numbers of nodes. -/
def Graph.records (graph : Graph) : List Record :=
  graph.toList.filterMap fun (id, node) => Record.ofNode? id node

end MissionGraph
