import MissionGraph.Outline.Basic
import MissionGraph.Proofs.Graph.References
import MissionGraph.Proofs.Graph.Stability
import MissionGraph.Proofs.Success

/-!
# What a plan knows

The plan for a graph counts the references to the nodes of the simplified graph and lists the tests of its
decisions. The count for a node is how often it is a child, and one more for the entry. There is a plan
unless a decision has no tests.
-/

namespace MissionGraph

namespace Graph

/-- A proper graph in which nothing forwards and all nodes are reached from the entry. -/
structure Simple (graph : Graph) : Prop where
  proper : graph.Proper
  folded : graph.Folded
  reached : ∀ id node, graph.get? id = some node → graph.Reaches entry id

theorem simple_simplify {graph : Graph} (proper : graph.Proper) : graph.simplify.Simple :=
  ⟨proper.simplify, folded_simplify proper, fun _ _ => reaches_simplify⟩

/-- A simple graph is simplified already. -/
theorem Simple.simplify_eq {graph : Graph} (simple : graph.Simple) : graph.simplify = graph :=
  simple.folded.simplify_eq simple.reached

/-- How often a node is used: as a child of a stored node, and from outside if it is the entry. -/
def uses (graph : Graph) (id : NodeId) : Nat :=
  (graph.ids.flatMap graph.children).count id + if id = entry then 1 else 0

theorem mem_uses_iff {graph : Graph} {id : NodeId} :
    id ∈ graph.ids.flatMap graph.children ↔ ∃ parent, graph.Child parent id := by
  rw [List.mem_flatMap]
  refine exists_congr fun parent => ⟨And.right, fun edge => ⟨?_, edge⟩⟩
  obtain ⟨node, found, _⟩ := child_iff.mp edge
  exact mem_ids_iff.mpr ⟨node, found⟩

/-- The children of what the entry reaches are the children of what is stored, since numbers without a node have
none. -/
theorem Rooted.children_perm {graph : Graph} (rooted : graph.Rooted) :
    ((graph.reachable entry).flatMap graph.children).Perm (graph.ids.flatMap graph.children) := by
  have onlyStored (ids : List NodeId) :
      ids.flatMap graph.children = (ids.filter graph.contains).flatMap graph.children := by
    induction ids with
    | nil => rfl
    | cons id rest ih =>
        rw [List.flatMap_cons, List.filter_cons, ih]
        split
        · rw [List.flatMap_cons]
        · rename_i absent
          have none_stored : graph.get? id = none := by simpa [contains_eq_isSome] using absent
          rw [children, none_stored]
          rfl
  rw [onlyStored]
  refine List.Perm.flatMap_right _ ?_
  refine (List.perm_ext_iff_of_nodup ((nodup_reachable graph entry).filter _) (nodup_ids graph)).mpr fun id => ?_
  rw [List.mem_filter, mem_reachable_iff, contains_iff, mem_ids_iff]
  refine and_iff_right_of_imp ?_
  rintro ⟨node, found⟩
  exact rooted id node found

/-- What the entry reaches is used. -/
theorem uses_pos_of_reaches {graph : Graph} {id : NodeId} (path : graph.Reaches entry id) : 0 < graph.uses id := by
  rcases Relation.ReflTransGen.cases_tail path with rfl | ⟨parent, _, edge⟩
  · rw [uses, if_pos rfl]
    exact Nat.succ_pos _
  · exact Nat.lt_of_lt_of_le (List.count_pos_iff.mpr (mem_uses_iff.mpr ⟨parent, edge⟩)) (Nat.le_add_right _ _)

/-- What is used in a rooted graph is reached from the entry. -/
theorem Rooted.uses_eq_zero {graph : Graph} (rooted : graph.Rooted) {id : NodeId}
    (unreached : ¬ graph.Reaches entry id) : graph.uses id = 0 := by
  have unused : id ∉ graph.ids.flatMap graph.children := by
    rw [mem_uses_iff]
    rintro ⟨parent, edge⟩
    obtain ⟨node, found, _⟩ := child_iff.mp edge
    exact unreached ((rooted parent node found).tail edge)
  have other : id ≠ entry := by
    rintro rfl
    exact unreached .refl
  rw [uses, List.count_eq_zero_of_not_mem unused, if_neg other]

/-- The references from the entry of a rooted graph are the counts of the uses, for what is used. -/
theorem Rooted.getElem?_references {graph : Graph} (rooted : graph.Rooted) (id : NodeId) :
    (graph.references entry)[id]? = if graph.uses id = 0 then none else some (graph.uses id) := by
  by_cases path : graph.Reaches entry id
  · rw [if_neg (Nat.pos_iff_ne_zero.mp (uses_pos_of_reaches path)), getElem?_references_of_reaches path, length_places,
      rooted.children_perm.count_eq, uses]
  · rw [if_pos (rooted.uses_eq_zero path)]
    exact Std.ExtTreeMap.getElem?_eq_none fun counted => path (mem_references_iff.mp counted)

/-- A node of a simple graph is used. -/
theorem Simple.uses_pos {graph : Graph} (simple : graph.Simple) {id : NodeId} {node : Node}
    (found : graph.get? id = some node) : 0 < graph.uses id :=
  uses_pos_of_reaches (simple.reached id node found)

/-- Nothing leads to the entry of a simple graph. -/
theorem Simple.not_child_entry {graph : Graph} (simple : graph.Simple) {parent : NodeId} :
    ¬ graph.Child parent entry := by
  intro edge
  obtain ⟨node, found, _⟩ := child_iff.mp edge
  exact simple.proper.acyclic entry (.tail' (simple.reached parent node found) edge)

/-- In a closed acyclic graph a fact spreads from all parents of a node to the node. -/
theorem Acyclic.induction_up {graph : Graph} (acyclic : graph.Acyclic) (closed : graph.Closed)
    {motive : NodeId → Prop} (step : ∀ id, (∀ parent, graph.Child parent id → motive parent) → motive id)
    (id : NodeId) : motive id := by
  -- a parent reaches more nodes than its child, and at most all of them
  induction measure : graph.size - (graph.reachable id).length using Nat.strongRecOn generalizing id with
  | _ _ ih =>
      subst measure
      refine step id fun parent edge => ih _ ?_ parent rfl
      have fewer := acyclic.length_reachable_lt edge
      have bounded : (graph.reachable parent).length ≤ graph.size := by
        rw [← length_ids]
        refine List.Subperm.length_le ((nodup_reachable graph parent).subperm fun key member => ?_)
        rw [mem_ids_iff]
        rcases Relation.ReflTransGen.cases_tail (mem_reachable_iff.mp member) with rfl | ⟨last, _, lastEdge⟩
        · obtain ⟨node, found, _⟩ := child_iff.mp edge
          exact ⟨node, found⟩
        · exact closed last key lastEdge
      omega

end Graph

namespace Outline

open Script (Group)

variable {graph : Graph}

/-- The count of references to a node of a rooted graph is the count of its uses. -/
theorem count_references (rooted : graph.Rooted) (id : NodeId) :
    References.count (graph.references Graph.entry) id = graph.uses id := by
  rw [References.count, rooted.getElem?_references]
  split
  · rename_i unused
    exact unused.symm
  · rfl

section Tests

variable {groups : List Group} {references : References} {id : NodeId} {nickname : String} {children : List NodeId}

/-- The decisions of a graph with their nicknames and children. -/
def decisions (graph : Graph) : List (NodeId × String × List NodeId) :=
  graph.toList.filterMap fun (id, node) => node.nickname?.map fun nickname => (id, nickname, node.children)

theorem mem_decisions_iff :
    (id, nickname, children) ∈ decisions graph ↔ graph.get? id = some ⟨.decision nickname, children⟩ := by
  rw [decisions, List.mem_filterMap]
  constructor
  · rintro ⟨⟨key, content, listed⟩, member, isDecision⟩
    obtain ⟨name, isNickname, same⟩ := Option.map_eq_some_iff.mp isDecision
    cases same
    cases content with
    | decision name =>
        cases isNickname
        exact Graph.mem_toList_iff.mp member
    | _ => cases isNickname
  · intro found
    exact ⟨(id, ⟨.decision nickname, children⟩), Graph.mem_toList_iff.mpr found, rfl⟩

/-- Listing the tests succeeds exactly if it does for every decision. -/
theorem exists_tests_iff :
    (∃ tests, Outline.tests graph groups references = .ok tests) ↔
      ∀ id nickname children, graph.get? id = some ⟨.decision nickname, children⟩ →
        ∃ tests, testsOf graph groups references id nickname children = .ok tests := by
  refine Success.exists_mapM_iff.trans ?_
  simp only [Prod.forall, Success.map_eq_ok_iff]
  refine forall_congr' fun id => forall_congr' fun nickname => forall_congr' fun children => ?_
  refine imp_congr mem_decisions_iff ⟨?_, ?_⟩
  · rintro ⟨_, tests, found, _⟩
    exact ⟨tests, found⟩
  · rintro ⟨tests, found⟩
    exact ⟨_, tests, found, rfl⟩

theorem nodup_decisions : ((decisions graph).map Prod.fst).Nodup := by
  have listed : (decisions graph).map Prod.fst =
      (graph.toList.filter fun pair => pair.2.nickname?.isSome).map Prod.fst := by
    rw [decisions]
    induction graph.toList with
    | nil => rfl
    | cons pair others ih =>
        obtain ⟨id, node⟩ := pair
        cases isDecision : node.nickname? <;> simp [isDecision, ih]
  rw [listed]
  refine (graph.nodup_ids.sublist ?_)
  rw [← Graph.map_fst_toList]
  exact List.filter_sublist.map _

/-- What is listed under the numbers of a list without repetitions can be looked up. -/
theorem lookup_of_mapM {values : List (NodeId × String × List NodeId)}
    {read : NodeId → String → List NodeId → Except GraphFault Tests} {tests : List (NodeId × Tests)}
    (success : (values.mapM fun (id, nickname, children) => (read id nickname children).map fun found => (id, found)) =
      .ok tests) (nodup : (values.map Prod.fst).Nodup) (member : (id, nickname, children) ∈ values) :
    ∃ found, read id nickname children = .ok found ∧ tests.lookup id = some found := by
  induction values generalizing tests with
  | nil => cases member
  | cons first others ih =>
      obtain ⟨firstId, firstName, firstChildren⟩ := first
      rw [List.mapM_cons] at success
      obtain ⟨pair, isPair, success⟩ := Success.bind_eq_ok_iff.mp success
      obtain ⟨found, isRead, rfl⟩ := Success.map_eq_ok_iff.mp isPair
      obtain ⟨rest, restRead, success⟩ := Success.bind_eq_ok_iff.mp success
      cases success
      rw [List.map_cons, List.nodup_cons] at nodup
      rcases List.mem_cons.mp member with same | later
      · cases same
        exact ⟨found, isRead, List.lookup_cons_self⟩
      · obtain ⟨result, isResult, isListed⟩ := ih restRead nodup.2 later
        have other : id ≠ firstId := by
          rintro rfl
          exact nodup.1 (List.mem_map.mpr ⟨_, later, rfl⟩)
        refine ⟨result, isResult, ?_⟩
        rw [List.lookup_cons, beq_false_of_ne other]
        exact isListed

/-- The tests listed for a decision are its tests. -/
theorem testsOf_eq {tests : List (NodeId × Tests)} (success : Outline.tests graph groups references = .ok tests)
    (found : graph.get? id = some ⟨.decision nickname, children⟩) :
    testsOf graph groups references id nickname children = .ok (testsFor tests id) := by
  obtain ⟨result, isResult, isListed⟩ := lookup_of_mapM success nodup_decisions (mem_decisions_iff.mpr found)
  rw [testsFor, isListed]
  exact isResult

/-- Decisions with tests have two ways out. -/
theorem length_children {tests : List (NodeId × Tests)} (success : Outline.tests graph groups references = .ok tests)
    (found : graph.get? id = some ⟨.decision nickname, children⟩) : children.length = 2 := by
  have isTest := testsOf_eq success found
  unfold testsOf at isTest
  split at isTest
  · rfl
  · cases isTest

end Tests

end Outline

end MissionGraph
