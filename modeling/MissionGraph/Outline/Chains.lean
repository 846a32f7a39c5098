import MissionGraph.Outline.Tests

/-!
# Joining chains of decisions

A decision whose second child is a decision that is used only there is one `if` with further blocks.
The two are joined into one choice, which can then take in further decisions at its end.
-/

namespace MissionGraph.Outline

open Script (Condition)

/-- The tests recorded for a decision. -/
def testsFor (tests : List (NodeId × Tests)) (id : NodeId) : Tests :=
  (tests.lookup id).getD ⟨.named "", none⟩

/-- The child that stands for all other cases. -/
def lastResort? (node : Node) : Option NodeId :=
  match node.content with
  | .decision _ => node.children[1]?
  | .choice conditions =>
      if conditions.length < node.children.length then node.children.getLast? else none
  | _ => none

/-- The conditions and children of a node up to its last resort. -/
def frontOf (tests : List (NodeId × Tests)) (id : NodeId) (node : Node) : List Condition × List NodeId :=
  match node.content with
  | .choice conditions => (conditions, node.children.dropLast)
  | _ => ([(testsFor tests id).first], node.children.take 1)

/-- The node with the given number and the decision at its end, if the two can be joined. -/
def joinable? (references : References) (graph : Graph) (id : NodeId) : Option (Node × NodeId × Node) := do
  let node ← graph.get? id
  let next ← lastResort? node
  let nextNode ← graph.get? next
  if next ≠ id ∧ references.count next ≤ 1 ∧ nextNode.nickname?.isSome then
    some (node, next, nextNode)
  else none

/-- The graph with the decision at the end of a node joined to it. -/
def join (tests : List (NodeId × Tests)) (graph : Graph) (id : NodeId) (node : Node)
    (next : NodeId) (nextNode : Node) : Graph :=
  let (conditions, children) := frontOf tests id node
  (graph.remove next).insert id
    ⟨.choice (conditions ++ (testsFor tests next).toList), children ++ nextNode.children⟩

theorem joinable?_stored {references : References} {graph : Graph} {id next : NodeId} {node nextNode : Node}
    (found : joinable? references graph id = some (node, next, nextNode)) :
    id ∈ graph.nodes ∧ next ∈ graph.nodes ∧ next ≠ id := by
  simp only [joinable?, Option.bind_eq_bind, Option.bind_eq_some_iff] at found
  obtain ⟨first, firstFound, second, _, third, thirdFound, chosen⟩ := found
  split at chosen
  · rename_i conditions
    cases chosen
    exact ⟨Graph.mem_nodes_of_get? firstFound, Graph.mem_nodes_of_get? thirdFound, conditions.1⟩
  · cases chosen

/-- Joining leaves one node less. -/
theorem size_join {references : References} {graph : Graph} {id next : NodeId} {node nextNode : Node}
    (tests : List (NodeId × Tests))
    (found : joinable? references graph id = some (node, next, nextNode)) :
    (join tests graph id node next nextNode).size + 1 = graph.size := by
  obtain ⟨stored, nextStored, different⟩ := joinable?_stored found
  have kept : id ∈ (graph.remove next).nodes := by
    simpa [Graph.remove] using ⟨different, stored⟩
  have same : (join tests graph id node next nextNode).size = (graph.remove next).size := by
    simp [join, Graph.insert, Graph.size, Std.ExtTreeMap.size_insert, kept]
  rw [same]
  exact Graph.size_remove nextStored

/-- Joins decisions to the queued nodes, each of which is queued again after it has taken one in. -/
def joinChains (references : References) (tests : List (NodeId × Tests)) (queue : List NodeId)
    (graph : Graph) : Graph :=
  match queue with
  | [] => graph
  | id :: rest =>
      match _found : joinable? references graph id with
      | some (node, next, nextNode) =>
          joinChains references tests (rest ++ [id]) (join tests graph id node next nextNode)
      | none => joinChains references tests rest graph
termination_by queue.length + graph.size
decreasing_by
  · have less := size_join tests _found
    simp only [List.length_append, List.length_cons, List.length_nil]
    omega
  · simp

end MissionGraph.Outline
