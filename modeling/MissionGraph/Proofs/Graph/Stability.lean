import MissionGraph.Proofs.Graph.Circles
import MissionGraph.Proofs.Graph.Halting

/-!
# Simplified graphs are stable

Whatever a graph looks like, no node forwards after simplifying, and the entry reaches all nodes that are left; the
entry itself may be gone. A graph of this kind is left alone by a further run. Flattening and promotion cut no node
off from the entry, so that nothing is dropped from a graph whose nodes are all reached.
-/

namespace MissionGraph.Graph

open Relation

variable {graph : Graph} {child : NodeId}

/-- All nodes are reached from the entry. -/
def Rooted (graph : Graph) : Prop :=
  ∀ id node, graph.get? id = some node → graph.Reaches entry id

theorem rooted_simplify (graph : Graph) : graph.simplify.Rooted :=
  fun _ _ => reaches_simplify

/-! ## Nothing forwards -/

/-- Whatever takes the place of the entry, no other node forwards. -/
theorem Flat.promoteStep {following : Graph} (flat : graph.Flat) (goes : graph.promoteStep = some following) :
    following.Flat := by
  obtain ⟨child, _, rfl⟩ := Option.map_eq_some_iff.mp goes
  cases found : (graph.remove entry).get? child with
  | none =>
      rw [rename_of_missing found]
      intro id node other foundId
      exact flat id node other (get?_of_get?_remove foundId).2
  | some childNode =>
      obtain ⟨different, foundChild⟩ := get?_of_get?_remove found
      exact flat.promoted different foundChild

theorem folded_promote_flatten (graph : Graph) : graph.flatten.promote.Folded := by
  obtain ⟨place, flattening⟩ := exists_flattening graph
  obtain ⟨flat, done⟩ := (halts_promote graph.flatten).keeps flattening.flat fun _ _ => Flat.promoteStep
  exact flat.folded (Option.map_eq_none_iff.mp done)

theorem Folded.cull (folded : graph.Folded) : (graph.cull entry).Folded :=
  fun id node found => folded id node (get?_of_get?_cull found).2

/-! ## A further run -/

theorem Folded.flatten_eq (folded : graph.Folded) : graph.flatten = graph := by
  rw [flatten]
  split
  · rfl
  · rename_i id child found
    obtain ⟨_, node, stored, forwards⟩ := firstForwarding?_eq_some found
    cases (folded id node stored).symm.trans forwards

theorem Folded.promote_eq (folded : graph.Folded) : graph.promote = graph := by
  refine promote_of_not_forwardsTo ?_
  rintro child ⟨node, stored, forwards⟩
  cases (folded entry node stored).symm.trans forwards

/-- No node is dropped exactly if the entry reaches all nodes. -/
theorem unreachable_eq_nil_iff : graph.unreachable entry = [] ↔ graph.Rooted := by
  refine List.filter_eq_nil_iff.trans ?_
  simp only [decide_eq_true_iff, not_not, mem_ids_iff, mem_reachable_iff, forall_exists_index]
  rfl

theorem Rooted.cull_eq (rooted : graph.Rooted) : graph.cull entry = graph := by
  refine ext_get? (fun id => ?_) rfl
  cases found : graph.get? id with
  | some node => rw [get?_cull_of_reaches (rooted id node found), found]
  | none =>
      rw [get?_cull, found]
      exact ite_self _

/-- A graph in which nothing forwards and all nodes are reached is simplified already. -/
theorem Folded.simplify_eq (folded : graph.Folded) (rooted : graph.Rooted) : graph.simplify = graph := by
  rw [simplify, folded.flatten_eq, folded.promote_eq, rooted.cull_eq]

/-- Simplifying ends on every graph, be it with circles, without some of its children or without the entry. It
leaves no node that forwards or that is not reached, and simplifying once more changes nothing. -/
theorem simplify_idempotent (graph : Graph) :
    Halts flattenStep graph graph.flatten ∧
      Halts promoteStep graph.flatten graph.flatten.promote ∧
      (∃ met, Halts (Search.gatherStep graph.flatten.promote.children) ([entry], []) ([], met) ∧
        graph.flatten.promote.reachable entry = met.mergeSort) ∧
      graph.simplify.Folded ∧ graph.simplify.Rooted ∧
      graph.simplify.simplify = graph.simplify := by
  have folded : graph.simplify.Folded := (folded_promote_flatten graph).cull
  have rooted := rooted_simplify graph
  exact ⟨halts_flatten graph, halts_promote _, halts_reachable _, folded, rooted, folded.simplify_eq rooted⟩

/-! ## Nothing is cut off -/

theorem Rooted.flatten (rooted : graph.Rooted) : graph.flatten.Rooted := by
  obtain ⟨place, flattening⟩ := exists_flattening graph
  intro id node found
  have stays := flattening.stays_of_get? found
  rw [flattening.kept id stays] at found
  obtain ⟨before, foundBefore, _⟩ := Option.map_eq_some_iff.mp found
  exact flattening.reaches_iff.mpr ⟨id, rooted id before foundBefore, flattening.place_eq stays⟩

/-- The entry leads to its child only, so that nothing else is stored if there is no node in the child's place. -/
theorem eq_or_eq_of_reaches (forwards : graph.ForwardsTo entry child)
    (missing : (graph.remove entry).get? child = none) {id : NodeId} (path : graph.Reaches entry id) :
    id = entry ∨ id = child := by
  induction path with
  | refl => exact .inl rfl
  | @tail parent last _ edge ih =>
      obtain ⟨parentNode, foundParent, member⟩ := child_iff.mp edge
      have isEntry : parent = entry := by
        by_contra other
        have isChild := ih.resolve_left other
        subst isChild
        rw [get?_remove, if_neg (Ne.symm other), foundParent] at missing
        cases missing
      subst isEntry
      obtain ⟨before, foundEntry, isForwarding⟩ := forwards
      obtain ⟨_, _, _, childrenEq⟩ := Node.forwardsTo?_eq_some_iff.mp isForwarding
      cases foundEntry.symm.trans foundParent
      rw [childrenEq, List.mem_singleton] at member
      exact .inr member

theorem Rooted.promoted (rooted : graph.Rooted) (forwards : graph.ForwardsTo entry child) :
    ((graph.remove entry).rename child entry).Rooted := by
  cases found : (graph.remove entry).get? child with
  | none =>
      rw [rename_of_missing found]
      intro id node foundId
      obtain ⟨notEntry, foundBefore⟩ := get?_of_get?_remove foundId
      rcases eq_or_eq_of_reaches forwards found (rooted id node foundBefore) with isEntry | rfl
      · exact absurd isEntry notEntry
      · cases found.symm.trans foundId
  | some childNode =>
      obtain ⟨different, foundChild⟩ := get?_of_get?_remove found
      intro id node foundId
      rw [get?_promoted different foundChild] at foundId
      split at foundId
      · rename_i isEntry
        exact isEntry ▸ .refl
      · split at foundId
        · cases foundId
        · rename_i notChild
          obtain ⟨before, foundBefore, _⟩ := Option.map_eq_some_iff.mp foundId
          have path := reaches_promoted forwards different foundChild (rooted id before foundBefore)
          rwa [bypass, if_neg (Ne.symm notChild)] at path

theorem Rooted.promote (rooted : graph.Rooted) : graph.promote.Rooted := by
  refine ((halts_promote graph).keeps rooted fun before after rootedBefore goes => ?_).1
  obtain ⟨child, forwards, rfl⟩ := Option.map_eq_some_iff.mp goes
  exact rootedBefore.promoted (Option.bind_eq_some_iff.mp forwards)

end MissionGraph.Graph
