import MissionGraph.Proofs.Graph.Paths

/-!
# Folding forwarding nodes away

A folding of a graph into another one renumbers the nodes that the entry reaches, so that forwarding
nodes share the number of what they forward to and all other nodes are kept with their contents and
their lists of children.
-/

namespace MissionGraph

theorem Node.forwardsTo?_eq_some_iff {node : Node} {child : NodeId} :
    node.forwardsTo? = some child ↔
      ∃ data, node.content = .data data ∧ data.isEmpty = true ∧ node.children = [child] := by
  obtain ⟨content, children⟩ := node
  constructor
  · intro forwards
    unfold Node.forwardsTo? at forwards
    split at forwards
    · rename_i data only contentEq childrenEq
      split at forwards
      · rename_i isEmpty
        cases forwards
        exact ⟨data, contentEq, isEmpty, childrenEq⟩
      · cases forwards
    · cases forwards
  · rintro ⟨data, contentEq, isEmpty, childrenEq⟩
    simp only at contentEq childrenEq
    subst contentEq childrenEq
    simp [Node.forwardsTo?, isEmpty]

/-- Renumbering children does not change whether a node forwards. -/
theorem Node.forwardsTo?_map (content : Content) (children : List NodeId) (change : NodeId → NodeId) :
    Node.forwardsTo? ⟨content, children.map change⟩ =
      (Node.forwardsTo? ⟨content, children⟩).map change := by
  unfold Node.forwardsTo?
  cases content with
  | data data =>
      match children with
      | [] => rfl
      | [only] =>
          simp only [List.map_cons, List.map_nil]
          split <;> rfl
      | _ :: _ :: _ => rfl
  | decision _ => rfl
  | documentation _ => rfl
  | choice _ => rfl

namespace Graph

open Relation

/-- The entry and all children are stored, and no node leads back to itself. -/
structure Proper (graph : Graph) : Prop where
  entry : ∃ node, graph.get? entry = some node
  closed : graph.Closed
  acyclic : graph.Acyclic

namespace Proper

variable {graph : Graph}

/-- What the entry reaches is stored. -/
theorem stored (proper : graph.Proper) {id : NodeId} (path : graph.Reaches Graph.entry id) :
    ∃ node, graph.get? id = some node := by
  rcases ReflTransGen.cases_tail path with same | ⟨parent, _, edge⟩
  · exact same ▸ proper.entry
  · exact proper.closed parent id edge

theorem ne_child (proper : graph.Proper) {parent child : NodeId} (edge : graph.Child parent child) :
    child ≠ parent := by
  rintro rfl
  exact proper.acyclic child (.single edge)

end Proper

theorem closed_iff {graph : Graph} :
    graph.Closed ↔ ∀ stored ∈ graph.toList, ∀ child ∈ stored.2.children, graph.contains child = true := by
  rw [← @forall_stored_iff graph fun _ node => ∀ child ∈ node.children, graph.contains child = true]
  constructor
  · intro closed id node found child member
    exact contains_iff.mpr (closed id child (child_of_get? found member))
  · intro present parent child edge
    obtain ⟨node, found, member⟩ := child_iff.mp edge
    exact contains_iff.mp (present parent node found child member)

instance (graph : Graph) : Decidable graph.Proper :=
  decidable_of_iff (graph.contains entry = true ∧
      (∀ stored ∈ graph.toList, ∀ child ∈ stored.2.children, graph.contains child = true) ∧
      graph.findCycle? = none) <| by
    rw [contains_iff, ← closed_iff, findCycle?_eq_none_iff]
    exact ⟨fun ⟨entry, closed, acyclic⟩ => ⟨entry, closed, acyclic⟩,
      fun proper => ⟨proper.entry, proper.closed, proper.acyclic⟩⟩

/-- The entry reaches the number, and the node stored there does not forward. -/
def Kept (graph : Graph) (id : NodeId) : Prop :=
  graph.Reaches entry id ∧ ∃ node, graph.get? id = some node ∧ node.forwardsTo? = none

theorem Kept.ne_forwarding {graph : Graph} {key id child : NodeId} {node : Node} (kept : graph.Kept key)
    (found : graph.get? id = some node) (forwards : node.forwardsTo? = some child) : key ≠ id := by
  rintro rfl
  obtain ⟨_, stored, foundKey, stays⟩ := kept
  rw [found] at foundKey
  cases foundKey
  rw [forwards] at stays
  cases stays

/-- No node forwards. -/
def Folded (graph : Graph) : Prop :=
  ∀ id node, graph.get? id = some node → node.forwardsTo? = none

/-- The renumbering folds forwarding nodes of the first graph away, as far as the entry reaches. -/
structure Folds (graph result : Graph) (place : NodeId → NodeId) : Prop where
  entry : place entry = entry
  node : ∀ id node, graph.Reaches Graph.entry id → graph.get? id = some node →
    (∃ child, node.forwardsTo? = some child ∧ place id = place child) ∨
      result.get? (place id) = some ⟨node.content, node.children.map place⟩
  injective : ∀ first second, graph.Kept first → graph.Kept second → place first = place second →
    first = second

namespace Folds

variable {graph result last : Graph} {place next : NodeId → NodeId}

/-- A node that is kept is stored in the result under its new number. -/
theorem get?_of_kept (folds : Folds graph result place) {id : NodeId} {node : Node}
    (reached : graph.Reaches Graph.entry id) (found : graph.get? id = some node)
    (kept : node.forwardsTo? = none) :
    result.get? (place id) = some ⟨node.content, node.children.map place⟩ := by
  rcases folds.node id node reached found with ⟨child, forwards, _⟩ | stored
  · rw [kept] at forwards
    cases forwards
  · exact stored

/-- What the entry reaches, it reaches in the result. -/
theorem reaches (folds : Folds graph result place) {id : NodeId}
    (path : graph.Reaches Graph.entry id) : result.Reaches Graph.entry (place id) := by
  induction path with
  | refl => exact folds.entry.symm ▸ .refl
  | @tail parent child path edge ih =>
      obtain ⟨node, found, member⟩ := child_iff.mp edge
      rcases folds.node parent node path found with ⟨only, forwards, same⟩ | stored
      · obtain ⟨_, _, _, childrenEq⟩ := Node.forwardsTo?_eq_some_iff.mp forwards
        have isOnly : child = only := by simpa [childrenEq] using member
        rw [isOnly, ← same]
        exact ih
      · exact ih.tail (child_of_get? stored (List.mem_map_of_mem member))

/-- What is kept is not a forwarding node of the result. -/
theorem kept (folds : Folds graph result place) {id : NodeId} (kept : graph.Kept id) :
    result.Kept (place id) := by
  obtain ⟨reached, node, found, stays⟩ := kept
  refine ⟨folds.reaches reached, _, folds.get?_of_kept reached found stays, ?_⟩
  rw [Node.forwardsTo?_map, stays]
  rfl

theorem refl (graph : Graph) : Folds graph graph id where
  entry := rfl
  node := fun id node _ found => .inr (by rw [List.map_id]; exact found)
  injective := fun _ _ _ _ same => same

/-- Foldings can be done one after the other. -/
theorem comp (first : Folds graph result place) (second : Folds result last next) :
    Folds graph last (next ∘ place) where
  entry := by
    show next (place Graph.entry) = Graph.entry
    rw [first.entry, second.entry]
  node := by
    intro id node reached found
    rcases first.node id node reached found with ⟨child, forwards, same⟩ | stored
    · exact .inl ⟨child, forwards, congrArg next same⟩
    rcases second.node _ _ (first.reaches reached) stored with ⟨child, forwards, same⟩ | storedLast
    · rw [Node.forwardsTo?_map] at forwards
      obtain ⟨old, forwardsOld, rfl⟩ := Option.map_eq_some_iff.mp forwards
      exact .inl ⟨old, forwardsOld, same⟩
    · refine .inr ?_
      simpa using storedLast
  injective := by
    intro one two keptOne keptTwo same
    exact first.injective one two keptOne keptTwo
      (second.injective _ _ (first.kept keptOne) (first.kept keptTwo) same)

/-- A forwarding node has the number of the node that it forwards to, if nothing forwards in the result. -/
theorem place_eq_of_forwards (folds : Folds graph result place) (folded : result.Folded) {id child : NodeId}
    {node : Node} (path : graph.Reaches Graph.entry id) (found : graph.get? id = some node)
    (forwards : node.forwardsTo? = some child) :
    place id = place child := by
  rcases folds.node id node path found with ⟨only, alsoForwards, samePlace⟩ | stored
  · rw [forwards] at alsoForwards
    cases alsoForwards
    exact samePlace
  · have unfolded := folded _ _ stored
    rw [Node.forwardsTo?_map, forwards] at unfolded
    cases unfolded

/-- The end of the forwarding from a reached node is kept; every folding gives the two the same number. -/
theorem exists_kept (proper : graph.Proper) {id : NodeId} (path : graph.Reaches Graph.entry id) :
    ∃ key, graph.Kept key ∧
      ∀ {result : Graph} {place : NodeId → NodeId}, Folds graph result place → result.Folded →
        place key = place id := by
  induction id using proper.acyclic.induction with
  | step id ih =>
      obtain ⟨node, found⟩ := proper.stored path
      cases forwards : node.forwardsTo? with
      | none => exact ⟨id, ⟨path, node, found, forwards⟩, fun _ _ => rfl⟩
      | some child =>
          obtain ⟨_, _, _, childrenEq⟩ := Node.forwardsTo?_eq_some_iff.mp forwards
          have edge : graph.Child id child := child_of_get? found (by simp [childrenEq])
          obtain ⟨key, kept, same⟩ := ih child edge (path.tail edge)
          refine ⟨key, kept, fun folds folded => (same folds folded).trans ?_⟩
          exact (folds.place_eq_of_forwards folded path found forwards).symm

/-- Every node that the entry reaches in the result comes from a kept node. -/
theorem origin (folds : Folds graph result place) (proper : graph.Proper)
    (folded : result.Folded) {id : NodeId} (path : result.Reaches Graph.entry id) :
    ∃ key, graph.Kept key ∧ place key = id := by
  induction path with
  | refl =>
      obtain ⟨key, kept, same⟩ := exists_kept proper .refl
      exact ⟨key, kept, (same folds folded).trans folds.entry⟩
  | @tail parent child _ edge ih =>
      obtain ⟨key, ⟨reached, node, found, stays⟩, rfl⟩ := ih
      obtain ⟨stored, foundStored, member⟩ := child_iff.mp edge
      rw [folds.get?_of_kept reached found stays] at foundStored
      cases foundStored
      obtain ⟨old, isOld, rfl⟩ := List.mem_map.mp member
      obtain ⟨next, kept, same⟩ := exists_kept proper (reached.tail (child_of_get? found isOld))
      exact ⟨next, kept, same folds folded⟩

end Folds

/-- The number that stands for another one after a node has been bypassed. -/
def bypass (id child : NodeId) (key : NodeId) : NodeId :=
  if key = id then child else key

theorem map_bypass_of_not_mem {id : NodeId} {keys : List NodeId} (absent : id ∉ keys) (child : NodeId) :
    keys.map (bypass id child) = keys := by
  have same : ∀ key ∈ keys, bypass id child key = key := by
    intro key member
    have other : key ≠ id := fun isId => absent (isId ▸ member)
    exact if_neg other
  rw [List.map_congr_left same, List.map_id']

end Graph

end MissionGraph
