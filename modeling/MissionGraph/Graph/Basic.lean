import MissionGraph.Mission.Data
import MissionGraph.Script.Statement
import Std.Data.ExtTreeMap

/-!
# Mission graphs

A graph stores nodes under numbers. A node has a content and the ordered list of the numbers of its
children; a child need not be stored. New nodes get the next unused number.
-/

namespace MissionGraph

open Mission (Data)
open Script (Condition)

/-- The number of a node. Numbers are taken as unbounded: nothing wraps around or fails at 32 bits, so there is
always a fresh number after the largest one. -/
abbrev NodeId := Nat

/-- What a node holds. A choice is a chain of decisions joined into one node. -/
inductive Content where
  | data (data : Data)
  | decision (nickname : String)
  | documentation (text : String)
  | choice (conditions : List Condition)
deriving DecidableEq

structure Node where
  content : Content
  children : List NodeId
deriving DecidableEq

namespace Node

/-- The data of a data node. -/
def data? (node : Node) : Option Data :=
  match node.content with
  | .data data => some data
  | _ => none

/-- The nickname of a decision. -/
def nickname? (node : Node) : Option String :=
  match node.content with
  | .decision nickname => some nickname
  | _ => none

end Node

/-- The nickname, in any letter case, of the decisions that test for a group. -/
def branchNickname : String := "branch"

/-- The nickname is that of a decision that tests for a group. -/
def isBranch (nickname : String) : Bool :=
  Text.sameLetters nickname branchNickname

structure Graph where
  nodes : Std.ExtTreeMap NodeId Node
  nextId : NodeId
deriving DecidableEq

namespace Graph

/-- The number of the node where every walk starts. -/
def entry : NodeId := 2

/-- The graph without nodes. -/
def empty : Graph := ⟨∅, entry + 1⟩

/-- The node stored under a number. -/
def get? (graph : Graph) (id : NodeId) : Option Node :=
  graph.nodes[id]?

/-- Whether a node is stored under the number. -/
def contains (graph : Graph) (id : NodeId) : Bool :=
  graph.nodes.contains id

/-- The count of stored nodes. -/
def size (graph : Graph) : Nat :=
  graph.nodes.size

/-- The numbers of all stored nodes in ascending order. -/
def ids (graph : Graph) : List NodeId :=
  graph.nodes.keys

/-- The stored nodes in ascending order of their numbers. -/
def toList (graph : Graph) : List (NodeId × Node) :=
  graph.nodes.toList

/-- The children of a node, none if it is not stored. -/
def children (graph : Graph) (id : NodeId) : List NodeId :=
  ((graph.get? id).map Node.children).getD []

/-- Stores a node in place of what was there; later new numbers are above it. -/
def insert (graph : Graph) (id : NodeId) (node : Node) : Graph :=
  ⟨graph.nodes.insert id node, max graph.nextId (id + 1)⟩

/-- Takes the next unused number without storing a node. -/
def reserve (graph : Graph) : NodeId × Graph :=
  (graph.nextId, { graph with nextId := graph.nextId + 1 })

/-- Stores a new node without children. -/
def add (graph : Graph) (content : Content) : NodeId × Graph :=
  (graph.nextId, ⟨graph.nodes.insert graph.nextId ⟨content, []⟩, graph.nextId + 1⟩)

def remove (graph : Graph) (id : NodeId) : Graph :=
  { graph with nodes := graph.nodes.erase id }

/-- Changes the node under a number, if there is one. -/
def modify (graph : Graph) (id : NodeId) (change : Node → Node) : Graph :=
  match graph.get? id with
  | some node => { graph with nodes := graph.nodes.insert id (change node) }
  | none => graph

/-- Appends a child to a node. -/
def link (graph : Graph) (parent child : NodeId) : Graph :=
  graph.modify parent fun node => { node with children := node.children ++ [child] }

/-- Changes the data of a data node. -/
def modifyData (graph : Graph) (id : NodeId) (change : Data → Data) : Graph :=
  graph.modify id fun node =>
    match node.content with
    | .data data => { node with content := .data (change data) }
    | _ => node

/-- Writes one number in place of another in all lists of children. -/
def redirect (graph : Graph) (old new : NodeId) : Graph :=
  { graph with
    nodes := graph.nodes.map fun _ node =>
      { node with children := node.children.map fun child => if child = old then new else child } }

/-- Removes a node and leads what led to it to another one. -/
def replace (graph : Graph) (old new : NodeId) : Graph :=
  (graph.redirect old new).remove old

/-- Moves a node to another number, together with the references of the other nodes to it. -/
def rename (graph : Graph) (old new : NodeId) : Graph :=
  match graph.get? old with
  | some node => ((graph.remove old).redirect old new).insert new node
  | none => graph

@[simp] theorem mem_ids (graph : Graph) (id : NodeId) : id ∈ graph.ids ↔ id ∈ graph.nodes := by
  simp [ids]

theorem mem_nodes_iff_get? (graph : Graph) (id : NodeId) :
    id ∈ graph.nodes ↔ ∃ node, graph.get? id = some node := by
  rw [get?, ← Option.isSome_iff_exists, Std.ExtTreeMap.mem_iff_isSome_getElem?]

theorem mem_nodes_of_get? {graph : Graph} {id : NodeId} {node : Node}
    (found : graph.get? id = some node) : id ∈ graph.nodes :=
  (graph.mem_nodes_iff_get? id).mpr ⟨node, found⟩

@[simp] theorem size_redirect (graph : Graph) (old new : NodeId) :
    (graph.redirect old new).size = graph.size := by
  simp [redirect, size]

/-- A stored node is one of a positive count. -/
theorem size_pos_of_mem {graph : Graph} {id : NodeId} (stored : id ∈ graph.nodes) :
    0 < graph.size := by
  apply Nat.pos_of_ne_zero
  intro none_stored
  have no_nodes := Std.ExtTreeMap.eq_empty_iff_size_eq_zero.mpr none_stored
  rw [no_nodes] at stored
  exact Std.ExtTreeMap.not_mem_empty stored

/-- Removing a stored node leaves one node less. -/
theorem size_remove {graph : Graph} {id : NodeId} (stored : id ∈ graph.nodes) :
    (graph.remove id).size + 1 = graph.size := by
  have positive := size_pos_of_mem stored
  have less : (graph.remove id).size = graph.size - 1 := by
    simp [remove, size, Std.ExtTreeMap.size_erase, stored]
  omega

/-- Replacing a stored node leaves one node less. -/
theorem size_replace {graph : Graph} {old : NodeId} (stored : old ∈ graph.nodes) (new : NodeId) :
    (graph.replace old new).size + 1 = graph.size := by
  have still : old ∈ (graph.redirect old new).nodes := by
    simpa [redirect] using stored
  have less := size_remove still
  simpa [replace] using less

end Graph

end MissionGraph
