import Mathlib.Data.List.Nodup
import MissionGraph.Proofs.Graph.Folding

/-!
# Moving a node to another number

A node that is moved to an unused number takes the references of all other nodes along. Its own children stay as they
were: if it is a child of itself, then the old number is left there, under which nothing is stored any more. Moved back,
the node finds all references as they had been.
-/

namespace MissionGraph.Graph

variable {graph : Graph} {old new : NodeId} {node : Node}

/-! ## One number in place of another -/

/-- The stored nodes with one number in place of another, for the nodes themselves and among all children. -/
def renumbered (graph : Graph) (old new : NodeId) : List (NodeId × Node) :=
  graph.toList.map fun (id, node) => (bypass old new id, ⟨node.content, node.children.map (bypass old new)⟩)

/-- The stored nodes with one number in place of another, except among the children of the node that has the number. -/
def moved (graph : Graph) (old new : NodeId) : List (NodeId × Node) :=
  graph.toList.map fun (id, node) =>
    (bypass old new id, if id = old then node else ⟨node.content, node.children.map (bypass old new)⟩)

theorem not_mem_map_bypass (different : new ≠ old) (children : List NodeId) :
    old ∉ children.map (bypass old new) := by
  rw [List.mem_map]
  rintro ⟨child, _, same⟩
  unfold bypass at same
  split at same
  · exact different same
  · contradiction

theorem map_bypass_bypass {children : List NodeId} (absent : new ∉ children) :
    (children.map (bypass old new)).map (bypass new old) = children := by
  rw [List.map_map]
  refine (List.map_congr_left fun child member => ?_).trans (List.map_id children)
  have other : child ≠ new := fun same => absent (same ▸ member)
  by_cases isOld : child = old
  · simp [bypass, isOld]
  · simp [bypass, isOld, other]

/-- Different numbers stay different, if the new one is not among them. -/
theorem nodup_map_bypass {ids : List NodeId} (nodup : ids.Nodup) (absent : new ∉ ids) :
    (ids.map (bypass old new)).Nodup := by
  refine List.Nodup.map_on (fun first isFirst second isSecond same => ?_) nodup
  unfold bypass at same
  split at same <;> split at same
  · rename_i firstOld secondOld
    exact firstOld.trans secondOld.symm
  · exact absurd (same ▸ isSecond) absent
  · exact absurd (same ▸ isFirst) absent
  · exact same

/-! ## What moving a node does -/

theorem nodup_toList (graph : Graph) : graph.toList.Nodup := by
  apply List.Nodup.of_map Prod.fst
  rw [map_fst_toList]
  exact graph.nodup_ids

theorem nodup_moved (free : new ∉ graph.ids) : (graph.moved old new).Nodup := by
  apply List.Nodup.of_map Prod.fst
  have numbers : (graph.moved old new).map Prod.fst = graph.ids.map (bypass old new) := by
    rw [moved, List.map_map, ← map_fst_toList, List.map_map]
    rfl
  rw [numbers]
  exact nodup_map_bypass graph.nodup_ids free

theorem mem_moved_iff {key : NodeId} {result : Node} :
    (key, result) ∈ graph.moved old new ↔ ∃ id node, graph.get? id = some node ∧ bypass old new id = key ∧
      (if id = old then node else ⟨node.content, node.children.map (bypass old new)⟩) = result := by
  simp only [moved, List.mem_map, Prod.exists, mem_toList_iff, Prod.mk.injEq]

/-- Moving a node changes the references of the other nodes to it. -/
theorem toList_rename_perm (found : graph.get? old = some node) (free : new ∉ graph.ids) :
    (graph.rename old new).toList.Perm (graph.moved old new) := by
  refine (List.perm_ext_iff_of_nodup (nodup_toList _) (nodup_moved free)).mpr ?_
  rintro ⟨key, result⟩
  rw [mem_toList_iff, mem_moved_iff, get?_rename found]
  constructor
  · intro stored
    split at stored
    · rename_i isNew
      cases stored
      exact ⟨old, node, found, (if_pos rfl).trans isNew, if_pos rfl⟩
    · split at stored
      · cases stored
      · rename_i notOld
        obtain ⟨before, foundKey, rfl⟩ := Option.map_eq_some_iff.mp stored
        exact ⟨key, before, foundKey, if_neg (Ne.symm notOld), if_neg (Ne.symm notOld)⟩
  · rintro ⟨id, before, foundId, rfl, rfl⟩
    have notNew : new ≠ id := by
      rintro rfl
      exact free (mem_ids_iff.mpr ⟨before, foundId⟩)
    by_cases isOld : id = old
    · subst isOld
      rw [found] at foundId
      cases foundId
      rw [bypass, if_pos rfl, if_pos rfl, if_pos rfl]
    · rw [bypass, if_neg isOld, if_neg notNew, if_neg (Ne.symm isOld), if_neg isOld, foundId]
      rfl

theorem get?_rename_rename (found : graph.get? old = some node) (free : new ∉ graph.ids)
    (unused : ∀ parent, ¬ graph.Child parent new) (key : NodeId) :
    ((graph.rename old new).rename new old).get? key = graph.get? key := by
  have atNew : (graph.rename old new).get? new = some node := by
    rw [get?_rename found, if_pos rfl]
  rw [get?_rename atNew]
  by_cases isOld : old = key
  · rw [if_pos isOld, ← isOld, found]
  rw [if_neg isOld]
  by_cases isNew : new = key
  · rw [if_pos isNew, ← isNew, get?_eq_none_iff.mpr free]
  rw [if_neg isNew, get?_rename found, if_neg isNew, if_neg isOld]
  cases foundKey : graph.get? key with
  | none => rfl
  | some other =>
      have absent : new ∉ other.children := fun member => unused key (child_of_get? foundKey member)
      exact congrArg (fun children => some (Node.mk other.content children)) (map_bypass_bypass absent)

/-- A stored node is moved to a number that is neither stored nor a child. Then the nodes are those of the graph with one
number in place of the other, except that the children of the node itself stay as they were; so the number is replaced
everywhere exactly if the node is no child of itself. Moving the node back gives the nodes of the graph in any case. -/
theorem rename_renumbers_iff (stored : graph.contains old = true) (free : graph.contains new = false)
    (unused : ∀ parent, ¬ graph.Child parent new) :
    (graph.rename old new).toList.Perm (graph.moved old new) ∧
      ((graph.rename old new).toList.Perm (graph.renumbered old new) ↔ ¬ graph.Child old old) ∧
      ((graph.rename old new).rename new old).nodes = graph.nodes := by
  obtain ⟨node, found⟩ := contains_iff.mp stored
  have notListed : new ∉ graph.ids := by
    rw [mem_ids_iff, ← contains_iff, free]
    exact Bool.false_ne_true
  have different : new ≠ old := by
    rintro rfl
    exact notListed (mem_ids_iff.mpr ⟨node, found⟩)
  have perm := toList_rename_perm found notListed
  refine ⟨perm, ⟨fun all selfChild => ?_, fun notSelf => ?_⟩,
    Std.ExtTreeMap.ext_getElem? fun {key} => get?_rename_rename found notListed unused key⟩
  · -- the moved node still has the old number among its children, which no renumbered node has
    have atNew : (new, node) ∈ (graph.rename old new).toList := by
      rw [mem_toList_iff, get?_rename found, if_pos rfl]
    obtain ⟨⟨id, before⟩, _, same⟩ := List.mem_map.mp (all.mem_iff.mp atNew)
    have children_eq : before.children.map (bypass old new) = node.children :=
      congrArg (fun entry => entry.2.children) same
    rw [Child, children_of_get? found, ← children_eq] at selfChild
    exact not_mem_map_bypass different _ selfChild
  · have same : graph.moved old new = graph.renumbered old new := by
      refine List.map_congr_left ?_
      rintro ⟨id, before⟩ listed
      dsimp only
      split
      · rename_i isOld
        have absent : old ∉ before.children := fun member =>
          notSelf (child_of_get? (isOld ▸ mem_toList_iff.mp listed) member)
        rw [map_bypass_of_not_mem absent]
      · rfl
    exact same ▸ perm

/-- That a number is no child can be checked along the list of the stored nodes. -/
theorem not_child_of_toList {id : NodeId} (absent : ∀ stored ∈ graph.toList, id ∉ stored.2.children) (parent : NodeId) :
    ¬ graph.Child parent id := by
  intro edge
  obtain ⟨node, found, member⟩ := child_iff.mp edge
  exact absent (parent, node) (mem_toList_iff.mpr found) member

/-- Two nodes that lead to each other, one of them also to a number without a node. -/
def mutualNodes : Graph :=
  Graph.empty
    |>.insert 3 ⟨.documentation "a", [4, 8, 4]⟩
    |>.insert 4 ⟨.documentation "b", [3, 3]⟩

/-- Node 3 is moved to 2 and back. -/
theorem rename_mutualNodes :
    mutualNodes.contains 3 = true ∧ mutualNodes.contains 2 = false ∧ (∀ parent, ¬ mutualNodes.Child parent 2) ∧
      (mutualNodes.rename 3 2).toList.Perm (mutualNodes.renumbered 3 2) ∧
      mutualNodes.renumbered 3 2 = [(2, ⟨.documentation "a", [4, 8, 4]⟩), (4, ⟨.documentation "b", [2, 2]⟩)] ∧
      ((mutualNodes.rename 3 2).rename 2 3).nodes = mutualNodes.nodes := by
  have stored : mutualNodes.contains 3 = true := by decide +kernel
  have free : mutualNodes.contains 2 = false := by decide +kernel
  have unused : ∀ parent, ¬ mutualNodes.Child parent 2 := not_child_of_toList (by decide +kernel)
  obtain ⟨_, everywhere, back⟩ := rename_renumbers_iff stored free unused
  have notSelf : ¬ mutualNodes.Child 3 3 := by
    unfold Child
    decide +kernel
  exact ⟨stored, free, unused, everywhere.mpr notSelf, by decide +kernel, back⟩

/-- A node that is its own child. -/
def selfNode : Graph :=
  Graph.empty.insert 3 ⟨.documentation "a", [3]⟩

/-- A node that is its own child keeps the old number there when it is moved. -/
theorem not_rename_renumbers :
    ¬ ∀ (graph : Graph) (old new : NodeId), graph.contains old = true → graph.contains new = false →
      (∀ parent, ¬ graph.Child parent new) → (graph.rename old new).toList.Perm (graph.renumbered old new) := by
  intro all
  have perm := all selfNode 3 5 (by decide +kernel) (by decide +kernel) (not_child_of_toList (by decide +kernel))
  exact absurd perm (by decide +kernel)

end MissionGraph.Graph
