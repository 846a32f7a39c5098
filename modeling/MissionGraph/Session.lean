import MissionGraph.Graph.Compile
import MissionGraph.Outline.Script
import MissionGraph.Play.Walk
import MissionGraph.Record.Dot
import MissionGraph.Record.Encode
import MissionGraph.Record.Ini
import MissionGraph.Script.Diagnostic

/-!
# Sessions

A session holds the records of one graph, which come from a script or from stored text, and the options
for what is done with them.
-/

namespace MissionGraph

open Play (Params Report RunFault)
open Script (Diagnostic)

structure Options where
  /-- The blanks for a level of indentation. -/
  indent : Nat
  /-- Every visited node is told. -/
  trace : Bool
  seed : UInt64
deriving DecidableEq

/-- The options of a session for which none were chosen. -/
def Options.standard : Options := ⟨4, false, 4869⟩

/-- Why a session cannot do what it is asked for. -/
inductive Failure where
  | script (diagnostic : Diagnostic) (source : String)
  | ini (fault : Ini.Fault)
  | graph (fault : GraphFault)
  | run (fault : RunFault)

namespace Failure

def message : Failure → String
  | .script diagnostic source => diagnostic.snippet source
  | .ini fault => fault.message
  | .graph fault => fault.message
  | .run fault => fault.message

end Failure

/-- A result together with the lines that were told on the way to it. -/
structure Attempt (α : Type) where
  log : List String
  result : Except Failure α

namespace Attempt

/-- An attempt that tells nothing. -/
def quiet {α : Type} (result : Except Failure α) : Attempt α := ⟨[], result⟩

def map {α β : Type} (change : α → β) (attempt : Attempt α) : Attempt β :=
  ⟨attempt.log, attempt.result.map change⟩

/-- Goes on with the result, if there is one. -/
def andThen {α β : Type} (attempt : Attempt α) (next : α → Attempt β) : Attempt β :=
  match attempt.result with
  | .error failure => ⟨attempt.log, .error failure⟩
  | .ok value => ⟨attempt.log ++ (next value).log, (next value).result⟩

end Attempt

structure Session where
  records : List Record
  options : Options

namespace Session

/-- A session without records. -/
def start : Session := ⟨[], .standard⟩

/-- The session with the records of a compiled script in place of its own. -/
def addScript (session : Session) (name source : String) : Attempt Session :=
  let compilation := compile source
  ⟨compilation.warnings,
    match compilation.result with
    | .ok graph => .ok { session with records := graph.records }
    | .error fault => .error (.script (.ofFault name fault) source)⟩

/-- The session with the records of a stored text in place of its own. -/
def addRecords (session : Session) (text : String) : Attempt Session :=
  .quiet <|
    match Ini.read text with
    | .ok records => .ok { session with records := records }
    | .error fault => .error (.ini fault)

/-- The first record of a node. -/
def record? (session : Session) (id : NodeId) : Option Record :=
  session.records.find? fun record => record.id == id

/-- The records as stored text. -/
def ini (session : Session) : String :=
  Ini.write session.records

/-- The records as a drawing. -/
def dot (session : Session) : String :=
  Dot.write session.records

/-- The script of the records. -/
def decompile (session : Session) : Attempt String :=
  .quiet ((Outline.decompile session.records session.options.indent).mapError .graph)

/-- The report of a walk through the graph of the records. -/
def run (session : Session) (params : Params) : Attempt Report :=
  match Graph.ofRecords session.records with
  | .error fault => .quiet (.error (.graph fault))
  | .ok graph =>
      let outcome := Play.run graph params session.options.seed
      ⟨outcome.log session.options.trace, outcome.result.mapError .run⟩

end Session

end MissionGraph
