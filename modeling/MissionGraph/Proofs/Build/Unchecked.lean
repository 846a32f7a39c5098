import Mathlib
import MissionGraph.Proofs.Build.Agreement
import MissionGraph.Proofs.Graph.Circles

/-!
# Graphs of scripts that have not been checked

A script can be built without the checks. If subs call themselves, the graph has circles, and simplifying it
may lose nodes that are still referred to, even the entry. Whether it does can be told from the graph before
it is simplified.
-/

namespace MissionGraph

open Script (Program Statement)

/-- Nothing leads to the entry of a graph that is laid out: new nodes have larger numbers, and calls lead to subs. -/
theorem LaidOut.not_child_entry {α : Type} {script : List (Statement α)} {graph : Graph}
    (laid : LaidOut script graph) (id : NodeId) : ¬ graph.Child id Graph.entry := by
  intro edge
  obtain ⟨node, found, _⟩ := Graph.child_iff.mp edge
  obtain ⟨root, body, low, high, listed, bodyAt, covered⟩ := laid.cover found
  have above := (LaidOut.root_lt (List.mem_map.mpr ⟨_, listed, rfl⟩)).1
  cases bodyAt.layout.leads (Part.behind_body bodyAt.below) (Part.owns_body_iff.mpr covered) edge with
  | ahead _ from_low _ =>
      exact absurd (Nat.lt_of_lt_of_le bodyAt.below from_low) (Nat.not_lt.mpr above)
  | called note name _ known =>
      obtain ⟨inner, declared⟩ := Script.mem_subsOf_of_lookup known
      have once := (List.nodup_cons.mp (Script.nodup_roots script)).1
      rw [List.map_map] at once
      exact once (List.mem_map.mpr ⟨_, declared, rfl⟩)
  | earlier node here member =>
      cases here
      cases member

theorem LaidOut.headed {α : Type} {script : List (Statement α)} {graph : Graph} (laid : LaidOut script graph) :
    graph.Headed where
  entry := laid.root_stored List.mem_cons_self
  closed := laid.closed
  top := laid.not_child_entry

/-- What can be built passes the checks, apart from that for recursion. -/
theorem exists_check_of_rawGraph {script : Program} {raw : Graph} (laid : LaidOut script raw)
    (built : Builder.rawGraph script = .ok raw) (recursion : Script.checkRecursion script = .ok ()) :
    ∃ warnings, Script.check script = .ok warnings := by
  refine Script.exists_check_eq_ok_iff.mpr ⟨?_, laid.checkReferences, recursion⟩
  cases declarations : Script.checkDeclarations script with
  | ok _ => rfl
  | error fault =>
      have refused := ofScript_of_checkDeclarations declarations
      rw [Graph.ofScript, built] at refused
      cases refused

/-- The graph of a parsed script has its entry and all of its children exactly if the graph that it is simplified
from settles; it does settle if no sub calls itself. -/
theorem unchecked_graph_closed_iff {source : String} {script : Program} {graph : Graph}
    (parsed : Script.parse source = .ok script) (built : Graph.ofScript script = .ok graph) :
    ∃ raw, Builder.rawGraph script = .ok raw ∧
      (graph.contains Graph.entry = true ∧ graph.Closed ↔ raw.Settles) ∧
      (Script.checkRecursion script = .ok () → raw.Settles) := by
  obtain ⟨raw, rawBuilt, rfl⟩ := Success.map_eq_ok_iff.mp built
  have laid := Builder.laidOut_of_rawGraph rawBuilt (Script.wellFormed_of_parse parsed).forks
  refine ⟨raw, rawBuilt, ?_, fun recursion => ?_⟩
  · rw [Graph.contains_iff]
    exact Graph.closed_simplify_iff laid.headed
  · obtain ⟨warnings, checked⟩ := exists_check_of_rawGraph laid rawBuilt recursion
    exact Graph.settles_of_acyclic (laid.acyclic checked)

/-- A sub that calls itself, and a call of it behind another statement. -/
def calledBehindDoc : String :=
  "sub a weight 1; call a; end doc x; call a;"

/-- A sub that calls itself behind other statements does no harm. -/
theorem unchecked_graph_closed_iff_behind_doc : ∃ script graph raw,
    Script.parse calledBehindDoc = .ok script ∧ Graph.ofScript script = .ok graph ∧
      Builder.rawGraph script = .ok raw ∧ graph.contains Graph.entry = true ∧ graph.Closed ∧ raw.Settles := by
  have evaluated : (do
      let script ← (Script.parse calledBehindDoc).toOption
      let graph ← (Graph.ofScript script).toOption
      return graph.contains Graph.entry &&
        graph.toList.all fun stored => stored.2.children.all fun child => graph.contains child) = some true := by
    cbv
  obtain ⟨script, parsed, evaluated⟩ := Success.exists_of_toOption_bind evaluated
  obtain ⟨graph, built, evaluated⟩ := Success.exists_of_toOption_bind evaluated
  obtain ⟨hasEntry, complete⟩ := Bool.and_eq_true_iff.mp (Option.some.inj evaluated)
  have closed : graph.Closed :=
    Graph.closed_iff.mpr fun stored member => List.all_eq_true.mp (List.all_eq_true.mp complete stored member)
  obtain ⟨raw, rawBuilt, settles, _⟩ := unchecked_graph_closed_iff parsed built
  exact ⟨script, graph, raw, parsed, built, rawBuilt, hasEntry, closed, settles.mp ⟨hasEntry, closed⟩⟩

/-- A sub that only calls itself is lost, and with it the entry that only calls the sub. A sub that calls itself
and takes the place of the entry still calls its old number. -/
theorem not_unchecked_graph_closed :
    ((Script.parse "sub a call a; end call a;").toOption.bind fun script =>
        (Graph.ofScript script).toOption.map fun graph => (graph.contains Graph.entry, graph.size)) =
      some (false, 0) ∧
    ((Script.parse "sub a weight 1; call a; end call a;").toOption.bind fun script =>
        (Graph.ofScript script).toOption.map fun graph => (graph.children Graph.entry, graph.contains 3)) =
      some ([3], false) := by
  constructor
  · cbv
  · cbv

end MissionGraph
