import MissionGraph.Graph.Simplify

/-!
# What the operations on a graph store

For every operation, the node under a number after it in terms of the nodes before it.
-/

namespace MissionGraph.Graph

variable {graph other : Graph} {id key : NodeId} {node : Node}

/-- Graphs with the same nodes and the same next number are equal. -/
theorem ext_get? (same : ∀ id, graph.get? id = other.get? id) (next : graph.nextId = other.nextId) :
    graph = other := by
  obtain ⟨nodes, nextId⟩ := graph
  obtain ⟨otherNodes, otherNext⟩ := other
  have equal : nodes = otherNodes := Std.ExtTreeMap.ext_getElem? fun {id} => same id
  subst equal
  cases next
  rfl

theorem contains_iff : graph.contains id = true ↔ ∃ node, graph.get? id = some node := by
  rw [contains, Std.ExtTreeMap.contains_iff_mem, mem_nodes_iff_get?]

theorem contains_eq_isSome : graph.contains id = (graph.get? id).isSome := by
  rw [contains, get?, Std.ExtTreeMap.contains_eq_isSome_getElem?]

theorem mem_ids_iff : id ∈ graph.ids ↔ ∃ node, graph.get? id = some node := by
  rw [mem_ids, mem_nodes_iff_get?]

theorem get?_eq_none_iff : graph.get? id = none ↔ id ∉ graph.ids := by
  rw [mem_ids_iff, ← Option.isSome_iff_exists, Option.not_isSome_iff_eq_none]

theorem mem_toList_iff : (id, node) ∈ graph.toList ↔ graph.get? id = some node := by
  simp [toList, get?]

/-- What holds of all stored nodes can be checked along the list of them. -/
theorem forall_stored_iff {holds : NodeId → Node → Prop} :
    (∀ id node, graph.get? id = some node → holds id node) ↔
      ∀ stored ∈ graph.toList, holds stored.1 stored.2 := by
  simp only [Prod.forall, mem_toList_iff]

theorem nodup_ids (graph : Graph) : graph.ids.Nodup := by
  refine (Std.ExtTreeMap.distinct_keys (t := graph.nodes)).imp fun {first second} different same => ?_
  exact different (by simp [same])

theorem ascending_ids (graph : Graph) : graph.ids.Pairwise (· < ·) :=
  (Std.ExtTreeMap.ordered_keys (t := graph.nodes)).imp Nat.compare_eq_lt.mp

theorem map_fst_toList (graph : Graph) : graph.toList.map Prod.fst = graph.ids :=
  Std.ExtTreeMap.map_fst_toList_eq_keys

theorem length_ids (graph : Graph) : graph.ids.length = graph.size :=
  Std.ExtTreeMap.length_keys

theorem children_of_get? (found : graph.get? id = some node) : graph.children id = node.children := by
  simp [children, found]

theorem get?_of_mem_children {child : NodeId} (member : child ∈ graph.children id) :
    ∃ node, graph.get? id = some node ∧ child ∈ node.children := by
  cases found : graph.get? id with
  | none => simp [children, found] at member
  | some node => exact ⟨node, rfl, by simpa [children, found] using member⟩

@[simp] theorem get?_empty (id : NodeId) : empty.get? id = none := by
  simp [empty, get?]

theorem get?_insert (graph : Graph) (id : NodeId) (node : Node) (key : NodeId) :
    (graph.insert id node).get? key = if id = key then some node else graph.get? key := by
  simp [insert, get?, Std.ExtTreeMap.getElem?_insert]

@[simp] theorem get?_insert_self (graph : Graph) (id : NodeId) (node : Node) :
    (graph.insert id node).get? id = some node := by
  rw [get?_insert, if_pos rfl]

theorem get?_insert_of_ne (different : id ≠ key) (node : Node) :
    (graph.insert id node).get? key = graph.get? key := by
  rw [get?_insert, if_neg different]

/-- Nodes under different numbers can be stored in either order. -/
theorem insert_comm (graph : Graph) {first second : NodeId} (different : first ≠ second) (node other : Node) :
    (graph.insert first node).insert second other = (graph.insert second other).insert first node := by
  apply ext_get?
  · intro key
    simp only [get?_insert]
    by_cases isFirst : first = key
    · subst isFirst
      rw [if_neg (Ne.symm different), if_pos rfl, if_pos rfl]
    · rw [if_neg isFirst, if_neg isFirst]
  · exact Nat.max_right_comm _ _ _

theorem get?_remove (graph : Graph) (id key : NodeId) :
    (graph.remove id).get? key = if id = key then none else graph.get? key := by
  simp [remove, get?, Std.ExtTreeMap.getElem?_erase]

theorem get?_redirect (graph : Graph) (old new key : NodeId) :
    (graph.redirect old new).get? key = (graph.get? key).map fun node =>
      ⟨node.content, node.children.map fun child => if child = old then new else child⟩ := by
  simp [redirect, get?]

theorem get?_replace (graph : Graph) (old new key : NodeId) :
    (graph.replace old new).get? key = if old = key then none else (graph.get? key).map fun node =>
      ⟨node.content, node.children.map fun child => if child = old then new else child⟩ := by
  rw [replace, get?_remove, get?_redirect]

theorem get?_rename {old new : NodeId} (found : graph.get? old = some node) (key : NodeId) :
    (graph.rename old new).get? key =
      if new = key then some node
      else if old = key then none
      else (graph.get? key).map fun node =>
        ⟨node.content, node.children.map fun child => if child = old then new else child⟩ := by
  rw [rename, found]
  simp only [get?_insert, get?_redirect, get?_remove]
  split
  · rfl
  · split <;> simp_all

theorem get?_modify (graph : Graph) (id : NodeId) (change : Node → Node) (key : NodeId) :
    (graph.modify id change).get? key =
      if id = key then (graph.get? key).map change else graph.get? key := by
  unfold modify
  split
  · rename_i node found
    have inserted : ({ graph with nodes := graph.nodes.insert id (change node) } : Graph).get? key =
        if id = key then some (change node) else graph.get? key := by
      simp [get?, Std.ExtTreeMap.getElem?_insert]
    rw [inserted]
    split
    · rename_i same
      rw [← same, found]
      rfl
    · rfl
  · rename_i missing
    split
    · rename_i same
      rw [← same, missing]
      rfl
    · rfl

@[simp] theorem nextId_modify (graph : Graph) (id : NodeId) (change : Node → Node) :
    (graph.modify id change).nextId = graph.nextId := by
  unfold modify
  split <;> rfl

theorem get?_link (graph : Graph) (parent child key : NodeId) :
    (graph.link parent child).get? key =
      if parent = key then (graph.get? key).map fun node => ⟨node.content, node.children ++ [child]⟩
      else graph.get? key :=
  get?_modify graph parent _ key

@[simp] theorem nextId_link (graph : Graph) (parent child : NodeId) :
    (graph.link parent child).nextId = graph.nextId :=
  nextId_modify graph parent _

@[simp] theorem nextId_modifyData (graph : Graph) (id : NodeId) (change : Mission.Data → Mission.Data) :
    (graph.modifyData id change).nextId = graph.nextId :=
  nextId_modify graph id _

theorem get?_modifyData_of_ne (different : id ≠ key) (change : Mission.Data → Mission.Data) :
    (graph.modifyData id change).get? key = graph.get? key := by
  rw [modifyData, get?_modify, if_neg different]

theorem get?_modifyData_self {data : Mission.Data} {children : List NodeId}
    (found : graph.get? id = some ⟨.data data, children⟩) (change : Mission.Data → Mission.Data) :
    (graph.modifyData id change).get? id = some ⟨.data (change data), children⟩ := by
  rw [modifyData, get?_modify, if_pos rfl, found]
  rfl

theorem get?_add (graph : Graph) (content : Content) (key : NodeId) :
    (graph.add content).2.get? key =
      if graph.nextId = key then some ⟨content, []⟩ else graph.get? key := by
  simp [add, get?, Std.ExtTreeMap.getElem?_insert]

theorem get?_cull (graph : Graph) (root key : NodeId) :
    (graph.cull root).get? key = if key ∈ graph.reachable root then graph.get? key else none := by
  have filtered : (graph.cull root).get? key =
      (graph.get? key).filter fun _ => decide (key ∈ graph.reachable root) :=
    Std.ExtTreeMap.getElem?_filter'
  rw [filtered]
  cases graph.get? key with
  | none => simp
  | some node => by_cases member : key ∈ graph.reachable root <;> simp [member]

end MissionGraph.Graph
