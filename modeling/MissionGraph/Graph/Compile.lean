import MissionGraph.Graph.Builder
import MissionGraph.Script.Check
import MissionGraph.Script.Parser

/-!
# Compilation

A source text is parsed, checked and turned into a graph. The warnings of the checks are kept even if
the graph cannot be built.
-/

namespace MissionGraph

open Script (Fault)

/-- What comes of a source text. -/
structure Compilation where
  warnings : List String
  result : Except Fault Graph

namespace Compilation

/-- Checks a script and builds its graph. -/
def ofScript (script : Script.Program) : Compilation :=
  match Script.check script with
  | .error fault => ⟨[], .error fault⟩
  | .ok warnings => ⟨warnings, Graph.ofScript script⟩

end Compilation

/-- Compiles a source text. -/
def compile (source : String) : Compilation :=
  match Script.parse source with
  | .error fault => ⟨[], .error fault⟩
  | .ok script => .ofScript script

end MissionGraph
