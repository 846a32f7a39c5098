import MissionGraph.Mission.Keyword
import MissionGraph.Number.Decimal

/-!
# Field values

The values that describe a mission: texts, offers, messages, limits and names of factions. Every
value has a one-line text, which is the text of its field in a script.
-/

namespace MissionGraph.Mission

open Number (Single intText)

/-- The parts of a value as a list with commas. -/
def listText (parts : List String) : String :=
  ", ".intercalate parts

/-- The number of a text in the game's tables, and the names put into it. -/
structure Message where
  id : Int32
  args : List String
deriving DecidableEq

namespace Message

def parts (message : Message) : List String :=
  intText message.id.toInt :: message.args

def text (message : Message) : String :=
  listText message.parts

end Message

/-- A message shown for one target of the mission. -/
structure Objective where
  target : String
  message : Message
deriving DecidableEq

/-- One piece of an offer text. -/
structure OfferItem where
  plurality : Plurality
  message : Message
deriving DecidableEq

namespace OfferItem

def parts (item : OfferItem) : List String :=
  item.plurality.marker?.toList ++ item.message.parts

end OfferItem

/-- An alternative for the offer text of a mission. -/
structure Offer where
  mode : OfferMode
  items : List OfferItem
deriving DecidableEq

namespace Offer

/-- The entry as it is written inside an `offer_text` field. -/
def text (offer : Offer) : String :=
  offer.mode.word ++ "(" ++ listText (offer.items.flatMap OfferItem.parts) ++ ")"

end Offer

/-- A spoken message: the event that starts it, who hears it, three numbers for its timing, who
speaks it, and what is said. -/
structure Comm where
  event : String
  target : Party
  first : Single
  second : Single
  third : Single
  source : Party
  comm : String
deriving DecidableEq

namespace Comm

def parts (comm : Comm) : List String :=
  [comm.event, comm.target.word, comm.first.text, comm.second.text, comm.third.text,
    comm.source.word, comm.comm]

end Comm

/-- The limits between which the difficulty of a mission lies. -/
structure Difficulty where
  lower : Single
  upper : Single
deriving DecidableEq

namespace Difficulty

def parts (difficulty : Difficulty) : List String :=
  [difficulty.lower.text, difficulty.upper.text]

end Difficulty

/-- A field statement. The two group fields hold the name of a declared group. -/
inductive Field where
  | comm (value : Comm)
  | failure (value : Message)
  | reward (value : Message)
  | objective (value : Objective)
  | offers (entries : List Offer)
  | difficulty (value : Difficulty)
  | weight (value : Int32)
  | zones (names : List String)
  | offerGroup (name : String)
  | hostileGroup (name : String)
deriving DecidableEq

namespace Field

/-- The keyword that starts the field. -/
def keyword : Field → String
  | .comm _ => "comm_sequence"
  | .failure _ => "failure_text"
  | .reward _ => "reward_text"
  | .objective _ => "objective_text"
  | .offers _ => "offer_text"
  | .difficulty _ => "difficulty"
  | .weight _ => "weight"
  | .zones _ => "allowable_zone_types"
  | .offerGroup _ => "offer_group"
  | .hostileGroup _ => "hostile_group"

/-- The name of the declared group that the field refers to. -/
def groupName? : Field → Option String
  | .offerGroup name => some name
  | .hostileGroup name => some name
  | _ => none

/-- What follows the keyword, on one line. -/
def valueText : Field → String
  | .comm value => listText value.parts
  | .failure value => value.text
  | .reward value => value.text
  | .objective value => listText (value.target :: value.message.parts)
  | .offers entries => "(" ++ listText (entries.map Offer.text) ++ ")"
  | .difficulty value => listText value.parts
  | .weight value => intText value.toInt
  | .zones names => listText names
  | .offerGroup name => name
  | .hostileGroup name => name

/-- The field on one line, without the semicolon that ends it. -/
def text (field : Field) : String :=
  field.keyword ++ " " ++ field.valueText

end Field

end MissionGraph.Mission
