import MissionGraph.Outline.Basic
import MissionGraph.Record.Decode
import MissionGraph.Script.Printer

/-!
# From a graph back to a script

The script of a graph: the declared groups, the statements from the entry on, and the subs.
-/

namespace MissionGraph.Outline

open Script (Group Statement)
open Text (Line)

/-- The outlines that make up a script. -/
structure Draft where
  groups : List Group
  main : Outline
  subs : List (NodeId × Outline)

namespace Draft

def ofPlan (plan : Plan) : Draft :=
  let main := plan.outlineAt Graph.entry
  ⟨plan.groups, main, plan.subs ((plan.graph.mentioned Graph.entry).mergeSort) main.calls⟩

/-- The statements of a script in the order in which they are written. -/
def script (draft : Draft) : List (Statement Unit) :=
  draft.groups.map (.group ())
    ++ draft.main.statements
    ++ draft.subs.map fun (id, outline) => .sub () (subName id) outline.statements

/-- The lines of a script: a title, the groups, the statements, and each sub after an empty line. -/
def lines (draft : Draft) : List Line :=
  [⟨0, "# Vignette Info Script"⟩, ⟨0, ""⟩]
    ++ draft.groups.map (fun group => ⟨0, group.text⟩)
    ++ [⟨0, ""⟩]
    ++ Statement.bodyLines draft.main.statements
    ++ draft.subs.flatMap fun (id, outline) =>
        ⟨0, ""⟩ :: (Statement.sub () (subName id) outline.statements).lines

/-- The text of a script. -/
def text (draft : Draft) (width : Nat) : String :=
  Text.renderLines width draft.lines

end Draft

/-- The script of a graph, with the given count of blanks for a level of indentation. -/
def decompileGraph (graph : Graph) (width : Nat) : Except GraphFault String :=
  (Plan.ofGraph graph).map fun plan => (Draft.ofPlan plan).text width

/-- The script of stored records. -/
def decompile (records : List Record) (width : Nat) : Except GraphFault String := do
  decompileGraph (← Graph.ofRecords records) width

end MissionGraph.Outline
