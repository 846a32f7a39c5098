import MissionGraph.Record.Basic

/-!
# Faults of a graph

Why stored records are no graph, or why a graph is no script. The wording of every message is in
`GraphFault.message`.
-/

namespace MissionGraph

/-- What a value of an entry has to be. -/
inductive ValueSort where
  | integer
  | number
  | boolean
  | name
deriving DecidableEq

namespace ValueSort

def description : ValueSort → String
  | .integer => "integer"
  | .number => "number"
  | .boolean => "boolean"
  | .name => "name"

end ValueSort

/-- Why an entry cannot be read. -/
inductive EntryFault where
  | missing (sort : ValueSort)
  | expected (sort : ValueSort) (found : Value)
  | unknownKeyword (word : String)
  | noItems
  | unexpected (value : Value)
  | unknownEntry
  /-- The entry does not occur at all. -/
  | absent
deriving DecidableEq

namespace EntryFault

def message : EntryFault → String
  | .missing sort => "missing " ++ sort.description
  | .expected sort found => "expected " ++ sort.description ++ ", found `" ++ found.text ++ "`"
  | .unknownKeyword word => "unknown keyword `" ++ word ++ "`"
  | .noItems => "expected at least one item"
  | .unexpected value => "unexpected `" ++ value.text ++ "`"
  | .unknownEntry => "unknown entry"
  | .absent => "missing"

end EntryFault

/-- Why records are no graph, or a graph is no script. -/
inductive GraphFault where
  | noStartNode
  | duplicateNode (id : NodeId)
  | missingNode (parent child : NodeId)
  | invalidBranch (id : NodeId)
  | decisionArity (id : NodeId) (count : Nat)
  | unknownKind (word : String)
  | invalidEntry (id : NodeId) (entry : String) (fault : EntryFault)
  | cycle (id : NodeId)
deriving DecidableEq

namespace GraphFault

def message : GraphFault → String
  | .noStartNode => "no start node (expected node " ++ Nat.repr Graph.entry ++ ")"
  | .duplicateNode id => "duplicate node " ++ Nat.repr id
  | .missingNode parent child =>
      "cannot find node " ++ Nat.repr child ++ " (child of node " ++ Nat.repr parent ++ ")"
  | .invalidBranch id =>
      "invalid branch node " ++ Nat.repr id ++ ": first child has no offer_group"
  | .decisionArity id count =>
      "decision node " ++ Nat.repr id ++ " has " ++ Nat.repr count ++ " children, expected 2"
  | .unknownKind word => "unknown record kind `" ++ word ++ "`"
  | .invalidEntry id entry fault =>
      "record " ++ Nat.repr id ++ ": invalid `" ++ entry ++ "` entry: " ++ fault.message
  | .cycle id => "node " ++ Nat.repr id ++ " is part of a cycle"

end GraphFault

/-- The kind with the given name, or the fault that there is none. -/
def RecordKind.ofWord (word : String) : Except GraphFault RecordKind :=
  match RecordKind.ofWord? word with
  | some kind => .ok kind
  | none => .error (.unknownKind word)

end MissionGraph
