import MissionGraph.Graph.Basic
import MissionGraph.Mission.Keyword
import MissionGraph.Number.Decimal

/-!
# Records

The flat form in which a graph is stored: one record for each node, with named entries of plain values
and the numbers of the node's children.
-/

namespace MissionGraph

open Number (Single intText)

/-- The kinds of records. -/
inductive RecordKind where
  | data
  | decision
  | documentation
deriving DecidableEq

namespace RecordKind

def word : RecordKind → String
  | .data => "DataNode"
  | .decision => "DecisionNode"
  | .documentation => "DocumentationNode"

/-- The kind with the given name, in any letter case. -/
def ofWord? : String → Option RecordKind :=
  Mission.ofWord? word [.data, .decision, .documentation]

end RecordKind

/-- A value of an entry. -/
inductive Value where
  | int (value : Int32)
  | float (value : Single)
  | bool (value : Bool)
  | name (text : String)
deriving DecidableEq

namespace Value

def text : Value → String
  | .int value => intText value.toInt
  | .float value => value.text
  | .bool value => if value then "true" else "false"
  | .name text => text

def int? : Value → Option Int32
  | .int value => some value
  | _ => none

/-- Integers count as numbers, rounded to single precision. -/
def float? : Value → Option Single
  | .int value => some (.ofInt value.toInt)
  | .float value => some value
  | _ => none

def bool? : Value → Option Bool
  | .bool value => some value
  | _ => none

/-- The words for truth values count as names. -/
def name? : Value → Option String
  | .name text => some text
  | .bool value => some (if value then "true" else "false")
  | _ => none

end Value

structure Entry where
  name : String
  values : List Value
deriving DecidableEq

namespace Entry

/-- The entry as it is written. -/
def text (entry : Entry) : String :=
  entry.name ++ " = " ++ Mission.listText (entry.values.map Value.text)

end Entry

structure Record where
  kind : RecordKind
  id : NodeId
  entries : List Entry
  children : List NodeId
deriving DecidableEq

end MissionGraph
