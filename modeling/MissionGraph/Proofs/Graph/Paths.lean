import Mathlib.Data.List.Perm.Subperm
import MissionGraph.Proofs.Graph.Lookup
import MissionGraph.Proofs.Graph.Search

/-!
# Paths in a graph

The relation between a node and its children, and what follows from it: which numbers are reachable,
when a graph has no cycle, and the induction from children to parents in such a graph.
-/

namespace MissionGraph.Graph

open Relation

variable {graph : Graph}

/-- The second number is among the children of the first. -/
def Child (graph : Graph) (parent child : NodeId) : Prop :=
  child ∈ graph.children parent

/-- Children lead from the first number to the second in any count of steps. -/
def Reaches (graph : Graph) : NodeId → NodeId → Prop :=
  ReflTransGen graph.Child

/-- Every child is stored. -/
def Closed (graph : Graph) : Prop :=
  ∀ parent child, graph.Child parent child → ∃ node, graph.get? child = some node

/-- No node leads back to itself. -/
def Acyclic (graph : Graph) : Prop :=
  ∀ id, ¬ TransGen graph.Child id id

theorem child_iff {parent child : NodeId} :
    graph.Child parent child ↔ ∃ node, graph.get? parent = some node ∧ child ∈ node.children := by
  constructor
  · exact get?_of_mem_children
  · rintro ⟨node, found, member⟩
    rwa [Child, children_of_get? found]

theorem child_of_get? {parent child : NodeId} {node : Node} (found : graph.get? parent = some node)
    (member : child ∈ node.children) : graph.Child parent child :=
  child_iff.mpr ⟨node, found, member⟩

/-! ## Reachable numbers -/

theorem nodup_mentioned (graph : Graph) (root : NodeId) : (graph.mentioned root).Nodup :=
  Search.nodup_eraseDups _

theorem mem_mentioned_of_child {root parent child : NodeId} (edge : graph.Child parent child) :
    child ∈ graph.mentioned root := by
  obtain ⟨node, found, _⟩ := child_iff.mp edge
  rw [mentioned, List.mem_eraseDups]
  refine List.mem_cons_of_mem _ (List.mem_append_right _ ?_)
  exact List.mem_flatMap.mpr ⟨parent, mem_ids_iff.mpr ⟨node, found⟩, edge⟩

theorem mem_reachable_iff {root id : NodeId} : id ∈ graph.reachable root ↔ graph.Reaches root id := by
  rw [reachable, List.mem_mergeSort, Search.mem_gather_iff _ _ _ (nodup_mentioned graph root)]
  constructor
  · rintro ⟨start, member, path⟩
    rw [List.mem_singleton] at member
    subst member
    exact path.reflTransGen
  · intro path
    refine ⟨root, List.mem_singleton_self root, ?_⟩
    -- along the path every number is the root or a child, hence mentioned
    have along (start : NodeId) (path : graph.Reaches start id) (inside : start ∈ graph.mentioned root) :
        Search.PathWithin graph.children (· ∈ graph.mentioned root) start id := by
      induction path using ReflTransGen.head_induction_on with
      | refl => exact .here inside
      | head edge _ ih => exact .step inside edge (ih (mem_mentioned_of_child edge))
    exact along root path (by simp [mentioned])

theorem nodup_reachable (graph : Graph) (root : NodeId) : (graph.reachable root).Nodup :=
  (List.mergeSort_perm _ _).nodup_iff.mpr (Search.nodup_gather _ _ _ (nodup_mentioned graph root))

/-! ## Graphs without cycles -/

/-- A graph whose edges all lead downwards in some numbering has no cycle. -/
theorem acyclic_of_rank (rank : NodeId → Nat)
    (down : ∀ parent child, graph.Child parent child → rank child < rank parent) : graph.Acyclic :=
  Search.not_circle_of_rank rank down

theorem joined_iff_child {parent child : NodeId} :
    Search.Joined graph.children id graph.ids parent child ↔ graph.Child parent child := by
  constructor
  · rintro ⟨_, edge, member, rfl⟩
    exact member
  · intro edge
    obtain ⟨node, found, _⟩ := child_iff.mp edge
    exact ⟨mem_ids_iff.mpr ⟨node, found⟩, child, edge, rfl⟩

/-- The search for a cycle finds one if there is one. -/
theorem findCycle?_eq_none_iff : graph.findCycle? = none ↔ graph.Acyclic := by
  have same : Search.Joined graph.children id graph.ids = graph.Child := by
    funext parent child
    exact propext joined_iff_child
  constructor
  · intro none_found
    obtain ⟨rank, down⟩ := Search.exists_rank_of_backEdge?_eq_none graph.children _ graph.ids none_found
    exact acyclic_of_rank rank (same ▸ down)
  · intro acyclic
    cases found : graph.findCycle? with
    | none => rfl
    | some back =>
        obtain ⟨last, _, edge, path⟩ := Search.circle_of_backEdge? graph.children _ graph.ids found
        rw [same] at path
        exact absurd (TransGen.head' edge path) (acyclic last)

/-- In a graph without cycles a child reaches fewer numbers than its parent. -/
theorem Acyclic.length_reachable_lt (acyclic : graph.Acyclic) {parent child : NodeId}
    (edge : graph.Child parent child) :
    (graph.reachable child).length < (graph.reachable parent).length := by
  have isReached : parent ∈ graph.reachable parent := mem_reachable_iff.mpr .refl
  have fewer : graph.reachable child ⊆ (graph.reachable parent).erase parent := by
    intro id member
    have path := mem_reachable_iff.mp member
    have different : id ≠ parent := by
      rintro rfl
      exact acyclic id (TransGen.head' edge path)
    exact (List.mem_erase_of_ne different).mpr (mem_reachable_iff.mpr (ReflTransGen.head edge path))
  have bound := (List.subperm_of_subset (nodup_reachable graph child) fewer).length_le
  have smaller := Search.length_erase_lt isReached
  omega

/-- A graph in which every way down from a node ends has no cycle. -/
theorem acyclic_of_acc (ends : ∀ id, Acc (fun child parent => graph.Child parent child) id) :
    graph.Acyclic := by
  intro id circle
  induction ends id with
  | intro id _ ih =>
      obtain ⟨child, edge, back⟩ := TransGen.head'_iff.mp circle
      exact ih child edge (TransGen.tail' back edge)

/-- Induction from children to parents. -/
theorem Acyclic.induction (acyclic : graph.Acyclic) {motive : NodeId → Prop}
    (step : ∀ id, (∀ child, graph.Child id child → motive child) → motive id) (id : NodeId) :
    motive id := by
  induction size : (graph.reachable id).length using Nat.strongRecOn generalizing id with
  | ind count ih =>
      refine step id fun child edge => ih _ ?_ child rfl
      exact size ▸ acyclic.length_reachable_lt edge

end MissionGraph.Graph
