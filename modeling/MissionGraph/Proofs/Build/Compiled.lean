import MissionGraph.Proofs.Build.Contents
import MissionGraph.Proofs.Graph.Simplification

/-!
# Compiled graphs

What is known of the graph that a source text is compiled to: how it comes from the parsed script, and
the facts that hold of every such graph.
-/

namespace MissionGraph

open Script (Program)

/-- A source text is compiled to a graph if its script passes the checks and can be built; the graph is
the simplified graph of the script. -/
theorem compile_eq_ok_iff {source : String} {graph : Graph} :
    (compile source).result = .ok graph ↔
      ∃ program warnings raw, Script.parse source = .ok program ∧ Script.check program = .ok warnings ∧
        Builder.rawGraph program = .ok raw ∧ raw.simplify = graph := by
  unfold compile Compilation.ofScript
  constructor
  · intro success
    split at success
    · cases success
    · rename_i program parsed
      split at success
      · cases success
      · rename_i warnings checked
        obtain ⟨raw, built, rfl⟩ := Success.map_eq_ok_iff.mp success
        exact ⟨program, warnings, raw, parsed, checked, built, rfl⟩
  · rintro ⟨program, warnings, raw, parsed, checked, built, rfl⟩
    rw [parsed]
    simp only
    rw [checked]
    exact Success.map_eq_ok_iff.mpr ⟨raw, built, rfl⟩

/-- The graph of a parsed and checked script before it is simplified. -/
structure RawGraph (program : Program) (raw : Graph) : Prop where
  wellFormed : Script.WellFormed program
  laidOut : LaidOut program raw
  proper : raw.Proper

theorem rawGraph_of_parse {source : String} {program : Program} {warnings : List String} {raw : Graph}
    (parsed : Script.parse source = .ok program) (checked : Script.check program = .ok warnings)
    (built : Builder.rawGraph program = .ok raw) : RawGraph program raw := by
  have formed := Script.wellFormed_of_parse parsed
  have laid := Builder.laidOut_of_rawGraph built formed.forks
  exact ⟨formed, laid, laid.proper checked⟩

/-- The facts that hold of every compiled graph. -/
structure Graph.Compiled (graph : Graph) : Prop where
  proper : graph.Proper
  folded : graph.Folded
  reached : ∀ id node, graph.get? id = some node → graph.Reaches Graph.entry id
  sound : ∀ id node, graph.get? id = some node → node.Sound
  wellFormed : ∀ id node, graph.get? id = some node → node.content.WellFormed

namespace RawGraph

variable {program : Program} {raw : Graph}

/-- A property of nodes that does not depend on the numbers of the children holds in the simplified graph
if it is an invariant of the script. -/
theorem forall_simplified (built : RawGraph program raw) {holds : Node → Prop}
    (invariant : Invariant (Script.scopeOf program) (Script.Statement.walkBody program) holds)
    (renumbered : ∀ content children (place : NodeId → NodeId), holds ⟨content, children⟩ →
      holds ⟨content, children.map place⟩) {id : NodeId} {node : Node}
    (found : raw.simplify.get? id = some node) : holds node := by
  obtain ⟨place, folds⟩ := Graph.exists_folds_simplify built.proper
  obtain ⟨key, ⟨reached, before, foundBefore, stays⟩, rfl⟩ :=
    folds.origin built.proper (Graph.folded_simplify built.proper) (Graph.reaches_simplify found)
  rw [folds.get?_of_kept reached foundBefore stays] at found
  cases found
  exact renumbered _ _ _ (built.laidOut.forall_stored invariant foundBefore)

theorem compiled (built : RawGraph program raw) : raw.simplify.Compiled where
  proper := built.proper.simplify
  folded := Graph.folded_simplify built.proper
  reached := fun _ _ found => Graph.reaches_simplify found
  sound := by
    intro id node found
    refine built.forall_simplified (invariant_sound _ _) ?_ found
    intro content children place sound
    cases content with
    | decision _ => exact (List.length_map _).trans sound
    | data _ => trivial
    | documentation _ => trivial
    | choice _ => exact sound
  wellFormed := fun _ _ found =>
    built.forall_simplified (invariant_wellFormed built.wellFormed) (fun _ _ _ formed => formed) found

end RawGraph

theorem compiled_of_compile {source : String} {graph : Graph} (success : (compile source).result = .ok graph) :
    graph.Compiled := by
  obtain ⟨program, warnings, raw, parsed, checked, built, rfl⟩ := compile_eq_ok_iff.mp success
  exact (rawGraph_of_parse parsed checked built).compiled

end MissionGraph
