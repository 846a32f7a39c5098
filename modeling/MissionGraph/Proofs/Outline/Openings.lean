import MissionGraph.Proofs.Outline.Drawing

/-!
# Nodes do not open each other in a circle

A graph of any shape can be planned, with cycles, nodes that lead to themselves and children that are not stored.
Every circle that the entry reaches holds a node that is used a second time, from outside the circle or as the entry,
and that is called instead of being written out. Joining moves uses from one parent to another but keeps this fact.
-/

namespace MissionGraph.Outline

open Relation

variable {references : References} {tests : List (NodeId × Tests)} {graph : Graph} {id next : NodeId}
  {node nextNode : Node}

/-- What joining keeps of any graph: all nodes are reached from the entry, none is used more often than was
counted, and decisions have two ways out. -/
structure Counted (references : References) (graph : Graph) : Prop where
  rooted : graph.Rooted
  uses : ∀ id, graph.uses id ≤ references.count id
  ways : ∀ id nickname children, graph.get? id = some ⟨.decision nickname, children⟩ → children.length = 2

namespace Counted

/-- A decision that can be joined to a node is the last of its children, behind the front that is kept. -/
theorem children_eq (counted : Counted references graph) (tests : List (NodeId × Tests))
    (found : joinable? references graph id = some (node, next, nextNode)) :
    node.children = (frontOf tests id node).2 ++ [next] := by
  obtain ⟨stored, resort, _⟩ := joinable?_eq_some_iff.mp found
  obtain ⟨content, children⟩ := node
  cases content with
  | data data => cases resort
  | documentation text => cases resort
  | decision nickname =>
      obtain ⟨one, two, rfl⟩ := List.length_eq_two.mp (counted.ways id nickname children stored)
      cases resort
      rfl
  | choice conditions =>
      rw [lastResort?] at resort
      dsimp only at resort
      split at resort
      · exact (List.dropLast_append_getLast? next resort).symm
      · cases resort

/-- The decision that is joined was used only there, and it is not the entry. -/
theorem unused (counted : Counted references graph) (tests : List (NodeId × Tests))
    (found : joinable? references graph id = some (node, next, nextNode)) :
    next ≠ Graph.entry ∧ next ∉ (join tests graph id node next nextNode).ids.flatMap
      (join tests graph id node next nextNode).children := by
  obtain ⟨stored, _, storedNext, different, alone, _⟩ := joinable?_eq_some_iff.mp found
  have moved := children_join different stored storedNext rfl (counted.children_eq tests found)
  have used := Nat.le_trans (counted.uses next) alone
  rw [Graph.uses, moved.count_eq, List.count_cons_self] at used
  constructor
  · rintro rfl
    rw [if_pos rfl] at used
    omega
  · exact List.count_eq_zero.mp (by omega)

/-- What was reached is still reached, and the decision that is joined has become a part of a node that is. -/
theorem reaches_join (counted : Counted references graph) (tests : List (NodeId × Tests))
    (found : joinable? references graph id = some (node, next, nextNode)) {key : NodeId}
    (path : graph.Reaches Graph.entry key) :
    (join tests graph id node next nextNode).Reaches Graph.entry (if key = next then id else key) := by
  obtain ⟨stored, _, storedNext, different, _⟩ := joinable?_eq_some_iff.mp found
  obtain ⟨notEntry, notBelow⟩ := counted.unused tests found
  have front := counted.children_eq tests found
  have below : (join tests graph id node next nextNode).children id =
      (frontOf tests id node).2 ++ nextNode.children := by
    rw [Graph.children, get?_join, if_pos rfl]
    rfl
  induction path with
  | refl =>
      rw [if_neg notEntry.symm]
      exact .refl
  | @tail parent child path edge ih =>
      by_cases isNext : parent = next
      · -- the children of the joined decision are now those of the node
        subst isNext
        rw [if_pos rfl] at ih
        split
        · exact ih
        · refine ih.tail ?_
          rw [Graph.Child, below]
          rw [Graph.Child, Graph.children_of_get? storedNext] at edge
          exact List.mem_append_right _ edge
      rw [if_neg isNext] at ih
      by_cases isId : parent = id
      · subst isId
        rw [Graph.Child, Graph.children_of_get? stored, front] at edge
        rcases List.mem_append.mp edge with inFront | isLast
        · split
          · exact ih
          · refine ih.tail ?_
            rw [Graph.Child, below]
            exact List.mem_append_left _ inFront
        · rw [if_pos (List.mem_singleton.mp isLast)]
          exact ih
      · have kept : (join tests graph id node next nextNode).Child parent child := by
          rwa [Graph.Child, children_join_of_ne isId isNext]
        rw [if_neg]
        · exact ih.tail kept
        · rintro rfl
          exact notBelow (Graph.mem_uses_iff.mpr ⟨parent, kept⟩)

/-- Joining one decision keeps the facts. -/
theorem join (counted : Counted references graph) (tests : List (NodeId × Tests))
    (found : joinable? references graph id = some (node, next, nextNode)) :
    Counted references (join tests graph id node next nextNode) := by
  obtain ⟨stored, _, storedNext, different, _⟩ := joinable?_eq_some_iff.mp found
  have moved := children_join different stored storedNext rfl (counted.children_eq tests found)
  obtain ⟨notEntry, notBelow⟩ := counted.unused tests found
  refine ⟨fun key keyNode foundKey => ?_, fun key => ?_, fun key nickname children foundKey => ?_⟩
  · have notNext : key ≠ next := by
      rintro rfl
      rw [get?_join, if_neg different.symm, if_pos rfl] at foundKey
      cases foundKey
    have storedBefore : ∃ before, graph.get? key = some before := by
      rw [get?_join, if_neg notNext.symm] at foundKey
      split at foundKey
      · rename_i same
        exact ⟨node, same ▸ stored⟩
      · exact ⟨keyNode, foundKey⟩
    obtain ⟨before, foundBefore⟩ := storedBefore
    have path := counted.reaches_join tests found (counted.rooted key before foundBefore)
    rwa [if_neg notNext] at path
  · by_cases isNext : key = next
    · subst isNext
      rw [Graph.uses, List.count_eq_zero_of_not_mem notBelow, if_neg notEntry]
      exact Nat.zero_le _
    · have same := counted.uses key
      rwa [Graph.uses, moved.count_eq, List.count_cons_of_ne (Ne.symm isNext)] at same
  · exact counted.ways key nickname children (get?_of_join_decision foundKey).1

/-- Joining chains keeps the facts. -/
theorem joinChains (counted : Counted references graph) (tests : List (NodeId × Tests)) (queue : List NodeId) :
    Counted references (joinChains references tests queue graph) := by
  fun_induction Outline.joinChains references tests queue graph with
  | case1 graph => exact counted
  | case2 graph id rest node next nextNode found ih => exact ih (counted.join tests found)
  | case3 graph id rest none_found ih => exact ih counted

end Counted

/-- A graph whose nodes are all reached is counted by the references from its entry, if its decisions have tests. -/
theorem Counted.of_tests {graph : Graph} {groups : List Script.Group} (rooted : graph.Rooted)
    (told : Outline.tests graph groups (graph.references Graph.entry) = .ok tests) :
    Counted (graph.references Graph.entry) graph :=
  ⟨rooted, fun id => Nat.le_of_eq (count_references rooted id).symm, fun _ _ _ => length_children told⟩

/-- The graph of a plan is counted, whatever graph the plan is for. -/
theorem counted_of_ofGraph {graph : Graph} {plan : Plan} (success : Plan.ofGraph graph = .ok plan) :
    Counted plan.references plan.graph := by
  obtain ⟨tests, told, made⟩ := Success.bind_eq_ok_iff.mp success
  cases made
  exact (Counted.of_tests graph.rooted_simplify told).joinChains tests _

/-- A number that occurs once among all children has one parent. -/
theorem parent_eq {graph : Graph} {id first second : NodeId}
    (once : (graph.ids.flatMap graph.children).count id ≤ 1) (isFirst : graph.Child first id)
    (isSecond : graph.Child second id) : first = second := by
  by_contra different
  have stored {parent : NodeId} (edge : graph.Child parent id) : parent ∈ graph.ids := by
    obtain ⟨node, found, _⟩ := Graph.child_iff.mp edge
    exact Graph.mem_ids_iff.mpr ⟨node, found⟩
  have other : second ∈ graph.ids.erase first := (List.mem_erase_of_ne (Ne.symm different)).mpr (stored isSecond)
  have parts := (List.perm_cons_erase (stored isFirst)).trans ((List.perm_cons_erase other).cons first)
  rw [(parts.flatMap_right _).count_eq, List.flatMap_cons, List.flatMap_cons, List.count_append,
    List.count_append] at once
  have inFirst := List.count_pos_iff.mpr isFirst
  have inSecond := List.count_pos_iff.mpr isSecond
  omega

namespace Counted

variable {plan : Plan}

/-- A node that another one opens is not the entry, and has no other parent. -/
theorem parent_of_opened (counted : Counted plan.references plan.graph) {parent child : NodeId}
    (opens : plan.openings.Child parent child) :
    child ≠ Graph.entry ∧ ∀ other, plan.graph.Child other child → other = parent := by
  obtain ⟨node, found, opened⟩ := Plan.child_openings_iff.mp opens
  obtain ⟨isChild, alone⟩ := Plan.of_mem_openedBelow opened
  have edge := Graph.child_of_get? found isChild
  have positive := List.count_pos_iff.mpr (Graph.mem_uses_iff.mpr ⟨parent, edge⟩)
  have used := Nat.le_trans (counted.uses child) alone
  rw [Graph.uses] at used
  constructor
  · rintro rfl
    rw [if_pos rfl] at used
    omega
  · intro other isOther
    exact parent_eq (by omega) isOther edge

/-- No node that the entry reaches lies on a circle of nodes that open each other. The way from the entry would have
to join the circle, at a node with a parent outside. -/
theorem acyclic_openings (counted : Counted plan.references plan.graph) : plan.openings.Acyclic := by
  have reached {id : NodeId} (path : plan.graph.Reaches Graph.entry id) : ¬ TransGen plan.openings.Child id id := by
    induction path with
    | refl =>
        intro circle
        obtain ⟨last, _, opens⟩ := TransGen.tail'_iff.mp circle
        exact (counted.parent_of_opened opens).1 rfl
    | @tail parent child _ edge ih =>
        intro circle
        obtain ⟨last, path, opens⟩ := TransGen.tail'_iff.mp circle
        obtain rfl := (counted.parent_of_opened opens).2 parent edge
        exact ih (.head' opens path)
  intro id circle
  obtain ⟨child, opens, _⟩ := TransGen.head'_iff.mp circle
  obtain ⟨node, found, _⟩ := Plan.child_openings_iff.mp opens
  exact reached (counted.rooted id node found) circle

end Counted

end MissionGraph.Outline
