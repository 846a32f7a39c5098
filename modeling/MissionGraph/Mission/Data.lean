import MissionGraph.Mission.Field

/-!
# Data nodes

A data node gathers field values. Its kind, which follows from the values it holds and from whether
anything comes after it, decides which further fields it can take.
-/

namespace MissionGraph.Mission

/-- The factions of a declared group. -/
structure Factions where
  names : List String
deriving DecidableEq

namespace Factions

/-- The text by which two groups with the same factions are recognised. -/
def canonical (factions : Factions) : String :=
  listText factions.names

def isEmpty (factions : Factions) : Bool :=
  factions.names.isEmpty

/-- The faction is one of the group, up to letter case. -/
def includes (factions : Factions) (faction : String) : Bool :=
  factions.names.any fun name => Text.sameLetters name faction

end Factions

/-- The field values that a node of the graph holds. -/
structure Data where
  weight : Option Int32
  implemented : Bool
  offerGroup : Option Factions
  hostileGroup : Option Factions
  zones : Option (List String)
  difficulty : Option Difficulty
  failure : Option Message
  reward : Option Message
  objectives : List Objective
  offers : List Offer
  comms : List Comm
deriving DecidableEq

/-- What a data node is about. -/
inductive DataKind where
  | none
  | closed
  | objective
  | difficulty
  | weight
  | comm
  | zones
  | offer
deriving DecidableEq

namespace DataKind

/-- Nodes of this kind can name an offering and a hostile group. -/
def acceptsGroups : DataKind → Bool
  | .none | .weight | .zones | .offer => true
  | .closed | .objective | .difficulty | .comm => false

end DataKind

namespace Data

/-- A data node without values. -/
def empty : Data where
  weight := none
  implemented := true
  offerGroup := none
  hostileGroup := none
  zones := none
  difficulty := none
  failure := none
  reward := none
  objectives := []
  offers := []
  comms := []

/-- The kind of a node; a node that something follows is closed. -/
def kind (data : Data) (hasChildren : Bool) : DataKind :=
  if hasChildren then .closed
  else if data.reward.isSome || data.failure.isSome || !data.objectives.isEmpty then .objective
  else if data.difficulty.isSome then .difficulty
  else if data.weight.isSome then .weight
  else if !data.comms.isEmpty then .comm
  else if data.zones.isSome then .zones
  else if !data.offers.isEmpty then .offer
  else .none

/-- The node holds a value. Groups and zones that are set but list nothing do not count. -/
def hasFields (data : Data) : Bool :=
  data.weight.isSome
    || data.offerGroup.any (!·.isEmpty)
    || data.hostileGroup.any (!·.isEmpty)
    || data.zones.any (!·.isEmpty)
    || data.difficulty.isSome
    || data.failure.isSome
    || data.reward.isSome
    || !data.objectives.isEmpty
    || !data.offers.isEmpty
    || !data.comms.isEmpty

/-- The node says nothing, not even that a mission is missing. -/
def isEmpty (data : Data) : Bool :=
  data.implemented && !data.hasFields

/-- Whether a node of the given kind with these values can take a field. -/
def accepts (data : Data) (kind : DataKind) : Field → Bool
  | .weight _ => kind == .none && data.weight.isNone
  | .zones _ => kind == .none
  | .offers _ => kind == .none
  | .offerGroup _ => kind.acceptsGroups && data.offerGroup.isNone
  | .hostileGroup _ => kind.acceptsGroups && data.hostileGroup.isNone
  | .failure _ => (kind == .none || kind == .objective) && data.failure.isNone
  | .reward _ => (kind == .none || kind == .objective) && data.reward.isNone
  | .objective _ => kind == .none || kind == .objective
  | .difficulty _ => (kind == .none || kind == .difficulty) && data.difficulty.isNone
  | .comm _ => kind == .none || kind == .comm

/-- The data with the value of a field; for a field that names a group, the factions of that group. -/
def put (data : Data) (factions : Factions) : Field → Data
  | .comm value => { data with comms := data.comms ++ [value] }
  | .failure value => { data with failure := some value }
  | .reward value => { data with reward := some value }
  | .objective value => { data with objectives := data.objectives ++ [value] }
  | .offers entries => { data with offers := data.offers ++ entries }
  | .difficulty value => { data with difficulty := some value }
  | .weight value => { data with weight := some value }
  | .zones names => { data with zones := some names }
  | .offerGroup _ => { data with offerGroup := some factions }
  | .hostileGroup _ => { data with hostileGroup := some factions }

end Data

end MissionGraph.Mission
