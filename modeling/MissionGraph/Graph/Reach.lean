import MissionGraph.Graph.Basic
import MissionGraph.Graph.Search

/-!
# Reachability, references and cycles

What can be reached from a node over children, how often each reached node is referred to, and
whether children lead back to where they came from.
-/

namespace MissionGraph.Graph

/-- All numbers that occur in the graph, stored or not, together with the given one. -/
def mentioned (graph : Graph) (root : NodeId) : List NodeId :=
  (root :: (graph.ids ++ graph.ids.flatMap graph.children)).eraseDups

/-- The numbers that can be reached from a root over children, in ascending order. The root and
numbers of nodes that are not stored are among them. -/
def reachable (graph : Graph) (root : NodeId) : List NodeId :=
  (Search.gather graph.children (graph.mentioned root) [root]).mergeSort

/-- How often each reachable number occurs as a child of reachable nodes. The root is referred to
once more, from outside. -/
def references (graph : Graph) (root : NodeId) : Std.ExtTreeMap NodeId Nat :=
  let reached := graph.reachable root
  let uses := reached.flatMap graph.children
  .ofList (reached.map fun id => (id, uses.count id + if id = root then 1 else 0))

/-- A node on a cycle, if there is one. -/
def findCycle? (graph : Graph) : Option NodeId :=
  Search.backEdge? graph.children id graph.ids

/-- The stored numbers that cannot be reached from the root, in ascending order. -/
def unreachable (graph : Graph) (root : NodeId) : List NodeId :=
  let reached := graph.reachable root
  graph.ids.filter fun id => id ∉ reached

/-- The graph without the nodes that cannot be reached from the root. -/
def cull (graph : Graph) (root : NodeId) : Graph :=
  let reached := graph.reachable root
  { graph with nodes := graph.nodes.filter fun id _ => id ∈ reached }

end MissionGraph.Graph
