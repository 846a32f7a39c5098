import Mathlib.Data.List.Sort
import MissionGraph.Proofs.Graph.Halting

/-!
# What is counted as a reference

The search from a root meets exactly the numbers that children lead to. The count of a number says in how many places
it stands: a place is a node that the root reaches together with a position among its children. The root itself is
counted once more, and numbers that are not reached have no count.
-/

namespace MissionGraph.Graph

variable {graph : Graph} {root id parent : NodeId} {position : Nat}

/-! ## Places -/

/-- A number stands at a position among the children of a stored node that the root reaches. -/
def StandsAt (graph : Graph) (root id : NodeId) (place : NodeId × Nat) : Prop :=
  graph.Reaches root place.1 ∧ ∃ node, graph.get? place.1 = some node ∧ node.children[place.2]? = some id

/-- The places where a number stands, parent by parent. -/
def places (graph : Graph) (root id : NodeId) : List (NodeId × Nat) :=
  (graph.reachable root).flatMap fun parent => ((graph.children parent).idxsOf id).map (Prod.mk parent)

theorem getElem?_children_iff :
    (graph.children parent)[position]? = some id ↔
      ∃ node, graph.get? parent = some node ∧ node.children[position]? = some id := by
  cases found : graph.get? parent with
  | none => simp [children, found]
  | some node => simp [children_of_get? found]

theorem mem_places_iff {place : NodeId × Nat} :
    place ∈ graph.places root id ↔ graph.StandsAt root id place := by
  obtain ⟨parent, position⟩ := place
  rw [StandsAt, ← getElem?_children_iff, ← mem_reachable_iff]
  simp [places, List.getElem?_eq_some_iff]

theorem nodup_places (graph : Graph) (root id : NodeId) : (graph.places root id).Nodup := by
  refine List.nodup_flatMap.mpr ⟨fun parent _ => ?_, ?_⟩
  · exact List.nodup_idxsOf.map fun first second same => congrArg Prod.snd same
  · -- the places of different parents differ in the parent
    refine (nodup_reachable graph root).imp fun different place isFirst isSecond => ?_
    obtain ⟨_, _, rfl⟩ := List.mem_map.mp isFirst
    obtain ⟨_, _, same⟩ := List.mem_map.mp isSecond
    exact different (congrArg Prod.fst same).symm

theorem length_places (graph : Graph) (root id : NodeId) :
    (graph.places root id).length = ((graph.reachable root).flatMap graph.children).count id := by
  simp [places, List.length_flatMap, List.count_flatMap, Function.comp_def]

/-- However the places are listed, without repetition, there are as many of them. -/
theorem length_eq_of_standsAt {listed : List (NodeId × Nat)} (nodup : listed.Nodup)
    (isPlace : ∀ place, place ∈ listed ↔ graph.StandsAt root id place) :
    listed.length = (graph.places root id).length := by
  refine List.Perm.length_eq ((List.perm_ext_iff_of_nodup nodup (nodup_places graph root id)).mpr fun place => ?_)
  rw [isPlace, mem_places_iff]

/-! ## Counts -/

theorem mem_references_iff : id ∈ graph.references root ↔ graph.Reaches root id := by
  rw [← mem_reachable_iff]
  simp [references]

theorem getElem?_references_of_reaches (path : graph.Reaches root id) :
    (graph.references root)[id]? = some ((graph.places root id).length + if id = root then 1 else 0) := by
  rw [length_places, references]
  refine Std.ExtTreeMap.getElem?_ofList_of_mem Std.ReflCmp.compare_self ?_
    (List.mem_map.mpr ⟨id, mem_reachable_iff.mpr path, rfl⟩)
  rw [List.pairwise_map]
  exact (nodup_reachable graph root).imp fun different same => different (by simpa using same)

/-- Reachable numbers are listed in ascending order. -/
theorem ascending_reachable (graph : Graph) (root : NodeId) : (graph.reachable root).Pairwise (· < ·) := by
  have sorted : (graph.reachable root).Pairwise (· ≤ ·) := List.pairwise_mergeSort' (· ≤ ·) _
  exact sorted.and (nodup_reachable graph root) |>.imp fun both => Nat.lt_of_le_of_ne both.1 both.2

/-- The search from a root ends in every graph, and lists in ascending order exactly the numbers that children lead to,
the root and numbers without a node among them. These and no others are counted. The count of a number is that of the
places where it stands among the children of reached nodes, and for the root one more. -/
theorem references_exact (graph : Graph) (root : NodeId) :
    (∃ met, Halts (Search.gatherStep graph.children) ([root], []) ([], met) ∧
        graph.reachable root = met.mergeSort) ∧
      (graph.reachable root).Pairwise (· < ·) ∧
      (∀ id, id ∈ graph.reachable root ↔ graph.Reaches root id) ∧
      (∀ id, id ∈ graph.references root ↔ graph.Reaches root id) ∧
      ∀ id count, (graph.references root)[id]? = some count ↔
        graph.Reaches root id ∧ ∃ listed : List (NodeId × Nat), listed.Nodup ∧
          (∀ place, place ∈ listed ↔ graph.StandsAt root id place) ∧
          count = listed.length + if id = root then 1 else 0 := by
  refine ⟨graph.halts_reachable_from root, ascending_reachable graph root, fun _ => mem_reachable_iff,
    fun _ => mem_references_iff, fun id count => ⟨fun found => ?_, ?_⟩⟩
  · have path : graph.Reaches root id :=
      mem_references_iff.mp (Std.ExtTreeMap.mem_iff_isSome_getElem?.mpr (by rw [found]; rfl))
    rw [getElem?_references_of_reaches path] at found
    exact ⟨path, graph.places root id, nodup_places graph root id, fun _ => mem_places_iff, (Option.some.inj found).symm⟩
  · rintro ⟨path, listed, nodup, isPlace, rfl⟩
    rw [getElem?_references_of_reaches path, length_eq_of_standsAt nodup isPlace]

end MissionGraph.Graph
