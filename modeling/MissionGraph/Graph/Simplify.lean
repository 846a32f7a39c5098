import MissionGraph.Graph.Reach

/-!
# Simplifying a graph

Empty data nodes with one child only forward to it. They are bypassed, the entry is replaced by what
it forwards to, and nodes that cannot be reached are dropped.
-/

namespace MissionGraph

/-- The node that an empty data node with one child forwards to. -/
def Node.forwardsTo? (node : Node) : Option NodeId :=
  match node.content, node.children with
  | .data data, [child] => if data.isEmpty then some child else none
  | _, _ => none

namespace Graph

/-- The first forwarding node other than the entry, and where it leads. -/
def firstForwarding? (graph : Graph) : Option (NodeId × NodeId) :=
  graph.toList.findSome? fun (id, node) =>
    if id = entry then none else node.forwardsTo?.map fun child => (id, child)

theorem mem_of_firstForwarding? {graph : Graph} {id child : NodeId}
    (found : graph.firstForwarding? = some (id, child)) : id ∈ graph.nodes := by
  obtain ⟨⟨key, node⟩, listed, taken⟩ := List.exists_of_findSome?_eq_some found
  have stored : graph.nodes[key]? = some node := by simpa [toList] using listed
  have same : key = id := by
    simp only at taken
    split at taken
    · cases taken
    · obtain ⟨_, _, pair⟩ := Option.map_eq_some_iff.mp taken
      exact congrArg Prod.fst pair
  exact same ▸ mem_nodes_of_get? stored

/-- Bypasses forwarding nodes other than the entry until none is left. -/
def flatten (graph : Graph) : Graph :=
  match _found : graph.firstForwarding? with
  | none => graph
  | some (id, child) => (graph.replace id child).flatten
termination_by graph.size
decreasing_by
  have less := size_replace (mem_of_firstForwarding? _found) child
  omega

/-- Moving a node does not make the graph larger. -/
theorem size_rename_le (graph : Graph) (old new : NodeId) : (graph.rename old new).size ≤ graph.size := by
  unfold rename
  split
  · rename_i node found
    have stored := mem_nodes_of_get? found
    have less := size_remove stored
    have grown : (((graph.remove old).redirect old new).insert new node).size ≤
        ((graph.remove old).redirect old new).size + 1 := Std.ExtTreeMap.size_insert_le
    rw [size_redirect] at grown
    omega
  · exact Nat.le_refl _

/-- While the entry only forwards, its child takes its place. -/
def promote (graph : Graph) : Graph :=
  match _found : (graph.get? entry).bind Node.forwardsTo? with
  | none => graph
  | some child => ((graph.remove entry).rename child entry).promote
termination_by graph.size
decreasing_by
  obtain ⟨node, stored, _⟩ := Option.bind_eq_some_iff.mp _found
  have less := size_remove (mem_nodes_of_get? stored)
  have moved := size_rename_le (graph.remove entry) child entry
  omega

/-- Flattens, promotes and keeps what the entry reaches. -/
def simplify (graph : Graph) : Graph :=
  graph.flatten.promote.cull entry

end Graph

end MissionGraph
