import MissionGraph.Proofs.Play.Safety
import MissionGraph.Proofs.Record.Decoding

/-!
# Compiled graphs evaluate

Every compiled graph is well formed, survives being stored as records, and every walk through it ends
with a report.
-/

namespace MissionGraph

open Mission (Data)

/-- A graph is proper if it has the nodes of a proper graph. -/
theorem Graph.Proper.of_nodes_eq {graph other : Graph} (proper : graph.Proper) (same : other.nodes = graph.nodes) :
    other.Proper := by
  obtain ⟨nodes, nextId⟩ := graph
  obtain ⟨otherNodes, otherNext⟩ := other
  cases same
  exact ⟨proper.entry, proper.closed, proper.acyclic⟩

/-- A compiled graph has an entry, all children are stored, no node leads back to itself, the entry
reaches all nodes, decisions have two children, no decisions are joined, and no empty node has a single
child. So its records are read back as the same nodes, and all walks through it end with a report. -/
theorem compile_wellFormed_evaluates {source : String} {graph : Graph}
    (success : (compile source).result = .ok graph) :
    (∃ node, graph.get? Graph.entry = some node) ∧
      (∀ id node, graph.get? id = some node → ∀ child ∈ node.children, ∃ other, graph.get? child = some other) ∧
      graph.Acyclic ∧
      (∀ id node, graph.get? id = some node → graph.Reaches Graph.entry id) ∧
      (∀ id nickname children, graph.get? id = some ⟨.decision nickname, children⟩ → children.length = 2) ∧
      (∀ id conditions children, graph.get? id ≠ some ⟨.choice conditions, children⟩) ∧
      (∀ id data children, graph.get? id = some ⟨.data data, children⟩ → data.isEmpty = true →
        children.length ≠ 1) ∧
      ∃ loaded, Graph.ofRecords graph.records = .ok loaded ∧ loaded.nodes = graph.nodes ∧
        ∀ params seed, (∃ report, (Play.run graph params seed).result = .ok report) ∧
          ∃ report, (Play.run loaded params seed).result = .ok report := by
  have compiled := compiled_of_compile success
  obtain ⟨loaded, loads, sameNodes⟩ := Graph.ofRecords_records compiled.proper compiled.wellFormed
  have sameGet (id : NodeId) : loaded.get? id = graph.get? id := by
    rw [Graph.get?, Graph.get?, sameNodes]
  refine ⟨compiled.proper.entry, ?_, compiled.proper.acyclic, compiled.reached, ?_, ?_, ?_, loaded, loads, sameNodes,
    fun params seed => ⟨?_, ?_⟩⟩
  · intro id node found child member
    exact compiled.proper.closed id child (Graph.child_of_get? found member)
  · intro id nickname children found
    exact compiled.sound id _ found
  · intro id conditions children found
    exact compiled.sound id _ found
  · intro id data children found isEmpty single
    obtain ⟨child, rfl⟩ := List.length_eq_one_iff.mp single
    have stays := compiled.folded id _ found
    have forwards : Node.forwardsTo? ⟨.data data, [child]⟩ = some child :=
      Node.forwardsTo?_eq_some_iff.mpr ⟨data, rfl, isEmpty, rfl⟩
    rw [stays] at forwards
    cases forwards
  · exact Play.run_ok compiled.proper compiled.sound seed
  · refine Play.run_ok (compiled.proper.of_nodes_eq sameNodes) (fun id node found => ?_) seed
    exact compiled.sound id node (sameGet id ▸ found)

/-- A script with a sub, a group and three ways through it. -/
def threeWays : String :=
  "group A x; sub s doc d; end if group(A) weight 1; elif c call s; else weight 2; end"

theorem compile_wellFormed_evaluates_three_ways : ∃ graph, (compile threeWays).result = .ok graph ∧
    (∃ node, graph.get? Graph.entry = some node) ∧ graph.Acyclic ∧
      ∀ params seed, ∃ report, (Play.run graph params seed).result = .ok report := by
  have compiles : (compile threeWays).result.toOption.isSome = true := by decide +kernel
  obtain ⟨graph, success⟩ := Success.exists_of_isSome compiles
  obtain ⟨entry, _, acyclic, _, _, _, _, _, _, _, runs⟩ := compile_wellFormed_evaluates success
  exact ⟨graph, success, entry, acyclic, fun params seed => (runs params seed).1⟩

end MissionGraph
