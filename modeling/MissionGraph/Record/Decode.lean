import MissionGraph.Graph.Reach
import MissionGraph.Record.Fault

/-!
# From records to a graph

The values of an entry are read from left to right and must be used up. An entry that is given again
overwrites a single value and extends a list. Records are a graph if their numbers differ, the entry
and all children are there, and no node leads back to itself.
-/

namespace MissionGraph

open Mission (Comm Data Difficulty Message Objective Offer OfferItem OfferMode Party Plurality)
open Number (Single)

/-- Reads from the front of a list of values. -/
abbrev ValueReader := StateT (List Value) (Except EntryFault)

namespace ValueReader

/-- The next value, if it is of the sort asked for. -/
def next {α : Type} (sort : ValueSort) (read? : Value → Option α) : ValueReader α := do
  match ← get with
  | [] => throw (.missing sort)
  | value :: rest =>
      match read? value with
      | some result =>
          set rest
          return result
      | none => throw (.expected sort value)

def int : ValueReader Int32 := next .integer Value.int?

def float : ValueReader Single := next .number Value.float?

def bool : ValueReader Bool := next .boolean Value.bool?

def name : ValueReader String := next .name Value.name?

/-- A name that is one of a set of words. -/
def keyword {α : Type} (ofWord? : String → Option α) : ValueReader α := do
  let word ← name
  match ofWord? word with
  | some value => return value
  | none => throw (.unknownKeyword word)

/-- All values as names. -/
def allNames : List Value → Except EntryFault (List String)
  | [] => .ok []
  | value :: rest =>
      match value.name? with
      | some name => (allNames rest).map (name :: ·)
      | none => .error (.expected .name value)

/-- All remaining values as names. -/
def names : ValueReader (List String) := do
  let found ← allNames (← get)
  set ([] : List Value)
  return found

def message : ValueReader Message := do
  let id ← int
  let args ← names
  return ⟨id, args⟩

/-- The plurality that a value in front of an offer item marks. -/
def marker? (value : Value) : Option Plurality :=
  value.name?.bind Plurality.ofMarker?

/-- The names up to the first value that is none or that marks a plurality, and the values from it on. -/
def splitArgs : List Value → List String × List Value
  | [] => ([], [])
  | value :: rest =>
      match marker? value, value.name? with
      | none, some name =>
          let (args, later) := splitArgs rest
          (name :: args, later)
      | _, _ => ([], value :: rest)

theorem splitArgs_length_le (values : List Value) :
    (splitArgs values).2.length ≤ values.length := by
  fun_induction splitArgs values with
  | case1 => exact Nat.le_refl _
  | case2 value rest name isName noMarker args later split ih =>
      rw [split] at ih
      exact Nat.le_succ_of_le ih
  | case3 => exact Nat.le_refl _

/-- The plurality in front of an offer item, and the values after it. -/
def splitMarker (first : Value) (rest : List Value) : Plurality × List Value :=
  match marker? first with
  | some plurality => (plurality, rest)
  | none => (.none, first :: rest)

theorem splitMarker_length_le (first : Value) (rest : List Value) :
    (splitMarker first rest).2.length ≤ rest.length + 1 := by
  unfold splitMarker
  split <;> simp

/-- Offer items until the values are used up. -/
def offerItems : List Value → Except EntryFault (List OfferItem)
  | [] => .ok []
  | first :: rest =>
      match _split : splitMarker first rest with
      | (_, []) => .error (.missing .integer)
      | (plurality, value :: more) =>
          match value.int? with
          | none => .error (.expected .integer value)
          | some id =>
              (offerItems (splitArgs more).2).map (⟨plurality, ⟨id, (splitArgs more).1⟩⟩ :: ·)
termination_by values => values.length
decreasing_by
  have fewer := splitArgs_length_le more
  have bound := splitMarker_length_le first rest
  rw [_split] at bound
  simp only [List.length_cons] at bound ⊢
  omega

def offer : ValueReader Offer := do
  let mode ← keyword OfferMode.ofWord?
  let items ← offerItems (← get)
  set ([] : List Value)
  if items.isEmpty then throw .noItems
  return ⟨mode, items⟩

def difficulty : ValueReader Difficulty := do
  let lower ← float
  let upper ← float
  return ⟨lower, upper⟩

def objective : ValueReader Objective := do
  let target ← name
  let message ← message
  return ⟨target, message⟩

def comm : ValueReader Comm := do
  let event ← name
  let hearer ← keyword Party.ofWord?
  let first ← float
  let second ← float
  let third ← float
  let speaker ← keyword Party.ofWord?
  let comm ← name
  return ⟨event, hearer, first, second, third, speaker, comm⟩

/-- What an entry of a data record does to the data, by its name in small letters. -/
def dataChange : String → ValueReader (Data → Data)
  | "weight" => do
      let value ← int
      return fun data => { data with weight := some value }
  | "implemented" => do
      let value ← bool
      return fun data => { data with implemented := value }
  | "offer_group" => do
      let value ← names
      return fun data => { data with offerGroup := some ⟨value⟩ }
  | "hostile_group" => do
      let value ← names
      return fun data => { data with hostileGroup := some ⟨value⟩ }
  | "allowable_zone_types" => do
      let value ← names
      return fun data => { data with zones := some value }
  | "difficulty" => do
      let value ← difficulty
      return fun data => { data with difficulty := some value }
  | "failure_text" => do
      let value ← message
      return fun data => { data with failure := some value }
  | "reward_text" => do
      let value ← message
      return fun data => { data with reward := some value }
  | "objective_text" => do
      let value ← objective
      return fun data => { data with objectives := data.objectives ++ [value] }
  | "offer_text" => do
      let value ← offer
      return fun data => { data with offers := data.offers ++ [value] }
  | "comm_sequence" => do
      let value ← comm
      return fun data => { data with comms := data.comms ++ [value] }
  | _ => throw .unknownEntry

/-- Reads all values of an entry. -/
def readAll {α : Type} (reader : ValueReader α) (values : List Value) : Except EntryFault α :=
  match reader.run values with
  | .error fault => .error fault
  | .ok (result, []) => .ok result
  | .ok (_, value :: _) => .error (.unexpected value)

end ValueReader

namespace Record

/-- The fault of an entry as a fault of the record with the given number. -/
def inEntry {α : Type} (id : NodeId) (entry : Entry) (result : Except EntryFault α) :
    Except GraphFault α :=
  match result with
  | .ok value => .ok value
  | .error fault => .error (.invalidEntry id entry.name fault)

/-- The data with what an entry says. -/
def readEntry (id : NodeId) (data : Data) (entry : Entry) : Except GraphFault Data :=
  inEntry id entry (((ValueReader.dataChange entry.name.toLower).readAll entry.values).map (· data))

def readData (id : NodeId) (entries : List Entry) : Except GraphFault Data :=
  entries.foldlM (readEntry id) .empty

/-- The value of an entry that must have the given name. -/
def readNamed (id : NodeId) (name : String) (entry : Entry) : Except GraphFault String :=
  inEntry id entry
    (if Text.sameLetters entry.name name then ValueReader.name.readAll entry.values
    else .error .unknownEntry)

/-- The one value of a record all of whose entries have the given name; the last entry counts. -/
def readSingle (id : NodeId) (name : String) (entries : List Entry) : Except GraphFault String := do
  let last ← entries.foldlM (fun _ entry => (readNamed id name entry).map some) none
  match last with
  | some value => return value
  | none => throw (.invalidEntry id name .absent)

/-- The node of a record. -/
def node (record : Record) : Except GraphFault Node := do
  let content ←
    match record.kind with
    | .data => (readData record.id record.entries).map Content.data
    | .decision => (readSingle record.id "nickname" record.entries).map Content.decision
    | .documentation =>
        (readSingle record.id "documentation" record.entries).map Content.documentation
  return ⟨content, record.children⟩

end Record

namespace Graph

/-- Stores the node of a record, whose number must be new. -/
def insertRecord (graph : Graph) (record : Record) : Except GraphFault Graph :=
  if graph.contains record.id then .error (.duplicateNode record.id)
  else record.node.map (graph.insert record.id)

/-- The first child of a record that is not stored. -/
def missingChild? (graph : Graph) (record : Record) : Option GraphFault :=
  (record.children.find? fun child => !graph.contains child).map (.missingNode record.id)

/-- The graph of a list of records. -/
def ofRecords (records : List Record) : Except GraphFault Graph := do
  let graph ← records.foldlM insertRecord empty
  if !graph.contains entry then throw .noStartNode
  match records.findSome? graph.missingChild? with
  | some fault => throw fault
  | none => pure ()
  match graph.findCycle? with
  | some id => throw (.cycle id)
  | none => return graph

end Graph

end MissionGraph
