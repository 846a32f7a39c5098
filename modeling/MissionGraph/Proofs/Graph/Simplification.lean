import MissionGraph.Proofs.Graph.Forwarding

/-!
# Simplified graphs

Simplifying flattens a graph, lets the node that the entry forwards to take its place, and drops what the entry
does not reach. Every one of these steps is a folding.
-/

namespace MissionGraph.Graph

open Relation

/-! ## Promoting the child of the entry -/

section Promote

variable {graph : Graph} {child : NodeId} {node childNode : Node}

/-- The graph in which the child of the entry has taken its place. -/
theorem get?_promoted (different : child ≠ Graph.entry) (found : graph.get? child = some childNode)
    (key : NodeId) :
    ((graph.remove Graph.entry).rename child Graph.entry).get? key =
      if Graph.entry = key then some childNode
      else if child = key then none
      else (graph.get? key).map fun node =>
        ⟨node.content, node.children.map (bypass child Graph.entry)⟩ := by
  have foundStill : (graph.remove Graph.entry).get? child = some childNode := by
    rw [get?_remove, if_neg (fun same => different same.symm), found]
  rw [get?_rename foundStill, get?_remove]
  split
  · rfl
  · rfl

theorem child_promoted_cases {parent last : NodeId} (different : child ≠ Graph.entry)
    (found : graph.get? child = some childNode)
    (edge : ((graph.remove Graph.entry).rename child Graph.entry).Child parent last) :
    (parent = Graph.entry ∧ graph.Child child last) ∨
      (parent ≠ Graph.entry ∧ ∃ old, graph.Child parent old ∧ bypass child Graph.entry old = last) := by
  obtain ⟨stored, foundParent, member⟩ := child_iff.mp edge
  rw [get?_promoted different found] at foundParent
  split at foundParent
  · rename_i same
    cases foundParent
    exact .inl ⟨same.symm, child_of_get? found member⟩
  · rename_i notEntry
    split at foundParent
    · cases foundParent
    · obtain ⟨before, foundBefore, rfl⟩ := Option.map_eq_some_iff.mp foundParent
      obtain ⟨old, isOld, rfl⟩ := List.mem_map.mp member
      exact .inr ⟨fun same => notEntry same.symm, old, child_of_get? foundBefore isOld, rfl⟩

theorem Proper.promoted (proper : graph.Proper) (edge : graph.Child Graph.entry child) :
    ((graph.remove Graph.entry).rename child Graph.entry).Proper := by
  have different := proper.ne_child edge
  obtain ⟨childNode, found⟩ := proper.closed _ _ edge
  refine ⟨⟨childNode, ?_⟩, ?_, ?_⟩
  · rw [get?_promoted different found, if_pos rfl]
  · intro parent last new
    have stored {above key : NodeId} (edge : graph.Child above key) (other : key ≠ child) :
        ∃ node, ((graph.remove Graph.entry).rename child Graph.entry).get? key = some node := by
      obtain ⟨before, foundBefore⟩ := proper.closed _ _ edge
      rw [get?_promoted different found, foundBefore]
      split
      · exact ⟨_, rfl⟩
      · rw [if_neg (fun same => other same.symm)]
        exact ⟨_, rfl⟩
    rcases child_promoted_cases different found new with ⟨_, below⟩ | ⟨_, old, oldEdge, rfl⟩
    · exact stored below (proper.ne_child below)
    · unfold bypass
      split
      · exact ⟨childNode, by rw [get?_promoted different found, if_pos rfl]⟩
      · rename_i other
        exact stored oldEdge other
  · -- the entry now counts what its child reached
    refine acyclic_of_rank (fun key =>
      (graph.reachable (if key = Graph.entry then child else key)).length) ?_
    intro parent last new
    have lower (key : NodeId) : (graph.reachable (if key = Graph.entry then child else key)).length ≤
        (graph.reachable key).length := by
      split
      · rename_i same
        exact Nat.le_of_lt (same ▸ proper.acyclic.length_reachable_lt edge)
      · exact Nat.le_refl _
    rcases child_promoted_cases different found new with ⟨rfl, below⟩ | ⟨other, old, oldEdge, rfl⟩
    · rw [if_pos rfl]
      exact Nat.lt_of_le_of_lt (lower last) (proper.acyclic.length_reachable_lt below)
    · rw [if_neg other]
      refine Nat.lt_of_le_of_lt ?_ (proper.acyclic.length_reachable_lt oldEdge)
      unfold bypass
      split
      · rename_i same
        exact Nat.le_of_eq (by rw [if_pos rfl, same])
      · exact lower old

theorem folds_promoted (proper : graph.Proper) (found : graph.get? Graph.entry = some node)
    (forwards : node.forwardsTo? = some child) :
    Folds graph ((graph.remove Graph.entry).rename child Graph.entry) (bypass child Graph.entry) := by
  obtain ⟨_, _, _, childrenEq⟩ := Node.forwardsTo?_eq_some_iff.mp forwards
  have edge : graph.Child Graph.entry child := child_of_get? found (by simp [childrenEq])
  have different := proper.ne_child edge
  obtain ⟨childNode, foundChild⟩ := proper.closed _ _ edge
  refine ⟨if_neg (fun same => different same.symm), ?_, ?_⟩
  · intro key stored _ foundKey
    by_cases isEntry : key = Graph.entry
    · subst isEntry
      rw [found] at foundKey
      cases foundKey
      refine .inl ⟨child, forwards, ?_⟩
      rw [bypass, if_neg (fun same => different same.symm), bypass, if_pos rfl]
    refine .inr ?_
    by_cases isChild : key = child
    · subst isChild
      rw [foundChild] at foundKey
      cases foundKey
      rw [bypass, if_pos rfl, get?_promoted different foundChild, if_pos rfl]
      -- the child does not lead to itself, so its own children keep their numbers
      have notOwn : key ∉ childNode.children := fun member => proper.ne_child (child_of_get? foundChild member) rfl
      rw [map_bypass_of_not_mem notOwn]
    · rw [bypass, if_neg isChild, get?_promoted different foundChild,
        if_neg (fun same => isEntry same.symm), if_neg (fun same => isChild same.symm), foundKey]
      rfl
  · intro first second keptFirst keptSecond same
    have firstOther := keptFirst.ne_forwarding found forwards
    have secondOther := keptSecond.ne_forwarding found forwards
    unfold bypass at same
    split at same
    · rename_i isChild
      split at same
      · rename_i alsoChild
        rw [isChild, alsoChild]
      · exact absurd same.symm secondOther
    · split at same
      · exact absurd same firstOther
      · exact same

end Promote

/-! ## Simplified graphs -/

section Simplify

variable {graph : Graph}

/-- If the child of the entry is not another stored node, then nothing takes the place of the entry. -/
theorem rename_of_missing {child : NodeId} (missing : (graph.remove entry).get? child = none) :
    (graph.remove entry).rename child entry = graph.remove entry := by
  rw [rename, missing]

theorem get?_of_get?_remove {id : NodeId} {node : Node} (found : (graph.remove entry).get? id = some node) :
    id ≠ entry ∧ graph.get? id = some node := by
  rw [get?_remove] at found
  split at found
  · cases found
  · rename_i different
    exact ⟨Ne.symm different, found⟩

theorem flatten_folds (proper : graph.Proper) :
    graph.flatten.Proper ∧ graph.flatten.Flat ∧ ∃ place, Folds graph graph.flatten place := by
  obtain ⟨place, flattening⟩ := exists_flattening graph
  exact ⟨flattening.proper proper, flattening.flat, place, flattening.folds⟩

theorem Flat.promoted {child : NodeId} (flat : graph.Flat) (different : child ≠ entry)
    {childNode : Node} (found : graph.get? child = some childNode) :
    ((graph.remove entry).rename child entry).Flat := by
  intro id node other foundNew
  rw [get?_promoted different found, if_neg (fun same => other same.symm)] at foundNew
  split at foundNew
  · cases foundNew
  · obtain ⟨before, foundBefore, rfl⟩ := Option.map_eq_some_iff.mp foundNew
    rw [Node.forwardsTo?_map, flat id before other foundBefore]
    rfl

/-- If not even the entry forwards, then no node does. -/
theorem Flat.folded (flat : graph.Flat) (settled : (graph.get? entry).bind Node.forwardsTo? = none) : graph.Folded := by
  intro id node found
  by_cases isEntry : id = entry
  · subst isEntry
    simpa [found] using settled
  · exact flat id node isEntry found

theorem promote_folds (proper : graph.Proper) (flat : graph.Flat) :
    graph.promote.Proper ∧ graph.promote.Folded ∧ ∃ place, Folds graph graph.promote place := by
  fun_induction promote graph with
  | case1 graph none_found => exact ⟨proper, flat.folded none_found, id, .refl graph⟩
  | case2 graph child found ih =>
      obtain ⟨node, stored, forwards⟩ := Option.bind_eq_some_iff.mp found
      obtain ⟨_, _, _, childrenEq⟩ := Node.forwardsTo?_eq_some_iff.mp forwards
      have edge : graph.Child entry child := child_of_get? stored (by simp [childrenEq])
      obtain ⟨childNode, foundChild⟩ := proper.closed _ _ edge
      obtain ⟨properAfter, folded, place, folds⟩ :=
        ih (proper.promoted edge) (flat.promoted (proper.ne_child edge) foundChild)
      exact ⟨properAfter, folded, _, (folds_promoted proper stored forwards).comp folds⟩

theorem get?_cull_of_reaches {id : NodeId} (path : graph.Reaches entry id) :
    (graph.cull entry).get? id = graph.get? id := by
  rw [get?_cull, if_pos (mem_reachable_iff.mpr path)]

theorem get?_of_get?_cull {id : NodeId} {node : Node} (found : (graph.cull entry).get? id = some node) :
    graph.Reaches entry id ∧ graph.get? id = some node := by
  rw [get?_cull] at found
  split at found
  · rename_i member
    exact ⟨mem_reachable_iff.mp member, found⟩
  · cases found

theorem folds_cull (graph : Graph) : Folds graph (graph.cull entry) id where
  entry := rfl
  node := by
    intro key node reached found
    refine .inr ?_
    rw [List.map_id, id_eq, get?_cull_of_reaches reached, found]
  injective := fun _ _ _ _ same => same

theorem child_cull {parent child : NodeId} (edge : (graph.cull entry).Child parent child) :
    graph.Reaches entry parent ∧ graph.Child parent child := by
  obtain ⟨node, found, member⟩ := child_iff.mp edge
  obtain ⟨reached, foundBefore⟩ := get?_of_get?_cull found
  exact ⟨reached, child_of_get? foundBefore member⟩

theorem Proper.cull (proper : graph.Proper) : (graph.cull Graph.entry).Proper where
  entry := by
    rw [get?_cull_of_reaches .refl]
    exact proper.entry
  closed := by
    intro parent child edge
    obtain ⟨reached, edgeBefore⟩ := child_cull edge
    rw [get?_cull_of_reaches (reached.tail edgeBefore)]
    exact proper.closed parent child edgeBefore
  acyclic := by
    intro id circle
    exact proper.acyclic id (TransGen.mono (fun _ _ edge => (child_cull edge).2) _ _ circle)

end Simplify

/-- In a simplified graph the entry and all children are stored and no node leads back to itself. -/
theorem Proper.simplify {graph : Graph} (proper : graph.Proper) : graph.simplify.Proper := by
  obtain ⟨properFlat, flat, _⟩ := flatten_folds proper
  exact (promote_folds properFlat flat).1.cull

/-- Simplifying folds forwarding nodes away. -/
theorem exists_folds_simplify {graph : Graph} (proper : graph.Proper) :
    ∃ place, Folds graph graph.simplify place := by
  obtain ⟨properFlat, flat, first, foldsFlat⟩ := flatten_folds proper
  obtain ⟨_, _, second, foldsPromote⟩ := promote_folds properFlat flat
  exact ⟨_, (foldsFlat.comp foldsPromote).comp (folds_cull _)⟩

/-- No node of a simplified graph forwards. -/
theorem folded_simplify {graph : Graph} (proper : graph.Proper) : graph.simplify.Folded := by
  obtain ⟨properFlat, flat, _⟩ := flatten_folds proper
  intro id node found
  exact (promote_folds properFlat flat).2.1 id node (get?_of_get?_cull found).2

/-- Every node of a simplified graph is reached from the entry. -/
theorem reaches_simplify {graph : Graph} {id : NodeId} {node : Node}
    (found : graph.simplify.get? id = some node) : graph.simplify.Reaches entry id :=
  (folds_cull _).reaches (get?_of_get?_cull found).1

/-- The nodes of a simplified graph have the contents of nodes of the graph. -/
theorem exists_content_of_simplify {graph : Graph} (proper : graph.Proper) {id : NodeId} {node : Node}
    (found : graph.simplify.get? id = some node) :
    ∃ key before, graph.get? key = some before ∧ before.content = node.content := by
  obtain ⟨place, folds⟩ := exists_folds_simplify proper
  obtain ⟨key, ⟨reached, before, foundBefore, stays⟩, rfl⟩ :=
    folds.origin proper (folded_simplify proper) (reaches_simplify found)
  rw [folds.get?_of_kept reached foundBefore stays] at found
  cases found
  exact ⟨key, before, foundBefore, rfl⟩

end MissionGraph.Graph
