import MissionGraph.Graph.Simplify
import MissionGraph.Script.Fault

/-!
# From a script to a graph

Statements are added behind a cursor, the node that the next field may still go into. A field goes
into the cursor's node if that can take it, otherwise into a new node behind it. An `if` becomes a
chain of decisions, one for each block but the last. What has been built before a fault remains.
-/

namespace MissionGraph

open Mission (Data Factions Field)
open Script (Block Cause Condition Fault Pos Statement)

/-- A graph under construction, the declared groups and subs, and the bodies still to be added. -/
structure Builder where
  graph : Graph
  groups : List (String × Factions)
  subs : List (String × NodeId)
  pending : List (NodeId × List (Statement Pos))

/-- A step of construction. -/
abbrev Build := EStateM Fault Builder

namespace Builder

/-- The builder whose graph has only an empty entry. -/
def start : Builder where
  graph := Graph.empty.insert Graph.entry ⟨.data .empty, []⟩
  groups := []
  subs := []
  pending := []

def fail {α : Type} (pos : Pos) (cause : Cause) : Build α :=
  throw ⟨pos, cause⟩

/-- Changes the graph only. -/
def modifyGraph (change : Graph → Graph) : Build Unit :=
  modify fun builder => { builder with graph := change builder.graph }

/-- Stores a new node without parents. -/
def addNode (content : Content) : Build NodeId := do
  let (id, graph) := (← get).graph.add content
  modifyGraph fun _ => graph
  return id

/-- Fails if nothing can follow the node: both ways out of a decision are taken. -/
def checkOpen (pos : Pos) (parent : NodeId) : Build Unit := do
  match (← get).graph.get? parent with
  | some ⟨.decision _, children⟩ => if 2 ≤ children.length then fail pos .continuesPastIf
  | some _ => pure ()
  | none => fail pos (.missingNode parent)

/-- Appends a child to a node that is still open. -/
def attach (pos : Pos) (parent child : NodeId) : Build Unit := do
  checkOpen pos parent
  modifyGraph (·.link parent child)

/-- A new empty data node behind a node that is still open. -/
def newData (pos : Pos) (parent : NodeId) : Build NodeId := do
  checkOpen pos parent
  let id ← addNode (.data .empty)
  attach pos parent id
  return id

def findGroup (pos : Pos) (name : String) : Build Factions := do
  match (← get).groups.lookup name with
  | some factions => return factions
  | none => fail pos (.unknownGroup name)

def findSub (pos : Pos) (name : String) : Build NodeId := do
  match (← get).subs.lookup name with
  | some id => return id
  | none => fail pos (.unknownSub name)

/-- The node under a number can take the field as it is. -/
def takes (graph : Graph) (id : NodeId) (field : Field) : Bool :=
  match graph.get? id with
  | some ⟨.data data, children⟩ => data.accepts (data.kind (!children.isEmpty)) field
  | _ => false

/-- Puts a field into a data node. -/
def putField (pos : Pos) (target : NodeId) (factions : Factions) (field : Field) : Build Unit := do
  match (← get).graph.get? target with
  | some ⟨.data _, _⟩ => modifyGraph (·.modifyData target (·.put factions field))
  | _ => fail pos .misplacedField

/-- Adds a field to the cursor's node or to a new one behind it. -/
def addField (pos : Pos) (cursor : NodeId) (field : Field) : Build NodeId := do
  let target ← if takes (← get).graph cursor field then pure cursor else newData pos cursor
  let factions ←
    match field.groupName? with
    | some name => findGroup pos name
    | none => pure ⟨[]⟩
  putField pos target factions field
  return target

/-- Marks the cursor's node, or a new one behind it, as a mission that is missing. -/
def addUnimplemented (pos : Pos) (cursor : NodeId) : Build NodeId := do
  let target ←
    match (← get).graph.get? cursor with
    | some ⟨.data _, _⟩ => pure cursor
    | _ => newData pos cursor
  modifyGraph (·.modifyData target fun data => { data with implemented := false })
  return target

/-- A new decision for a condition. -/
def addDecision (pos : Pos) : Condition → Build NodeId
  | .named name => addNode (.decision name)
  | .group _ => addNode (.decision branchNickname)
  | .otherwise => fail pos .malformedIf

mutual

/-- Adds a statement; the result is the new cursor. -/
def addStatement (cursor : NodeId) : Statement Pos → Build NodeId
  | .sub pos _ _ => fail pos .declarationInside
  | .group pos _ => fail pos .declarationInside
  | .choice pos blocks => addChoice pos cursor blocks
  | .call pos name => do
      let target ← findSub pos name
      attach pos cursor target
      return cursor
  | .unimplemented pos => addUnimplemented pos cursor
  | .doc pos name => do
      let id ← addNode (.documentation name)
      attach pos cursor id
      return id
  | .field pos field => addField pos cursor field

/-- Adds statements one behind the other. -/
def addSequence (cursor : NodeId) : List (Statement Pos) → Build NodeId
  | [] => return cursor
  | statement :: rest => do
      let next ← addStatement cursor statement
      addSequence next rest

/-- Adds an `if`; its first decision is the new cursor. -/
def addChoice (pos : Pos) (cursor : NodeId) : List (Block Pos) → Build NodeId
  | [] => fail pos .malformedIf
  | block :: rest => do
      let first ← addDecision pos block.condition
      attach pos cursor first
      addBlock pos first block
      addLaterBlocks pos first rest
      return first

/-- Adds the blocks after the first behind the decision before them. The last block is the second way
out of the last decision. -/
def addLaterBlocks (pos : Pos) (decision : NodeId) : List (Block Pos) → Build Unit
  | [] => return ()
  | [block] => addBlock pos decision block
  | block :: next :: rest => do
      let id ← addDecision pos block.condition
      attach pos decision id
      addBlock pos id block
      addLaterBlocks pos id (next :: rest)

/-- Adds the statements of a block behind a decision. A block for a group starts with a node that
names the group. Another block that is nothing but an `if` needs no node of its own. -/
def addBlock (pos : Pos) (parent : NodeId) : Block Pos → Build Unit
  | .mk (.group name) body => do
      let factions ← findGroup pos name
      let id ← newData pos parent
      modifyGraph (·.modifyData id fun data => { data with offerGroup := some factions })
      let _ ← addSequence id body
      return ()
  | .mk _ [.choice inner blocks] => do
      let _ ← addChoice inner parent blocks
      return ()
  | .mk _ (.choice _ _ :: extra :: _) => fail extra.note .continuesPastIf
  | .mk _ body => do
      let id ← newData pos parent
      let _ ← addSequence id body
      return ()

end

/-- Declares a group. -/
def declareGroup (pos : Pos) (group : Script.Group) : Build Unit := do
  if ((← get).groups.lookup group.name).isSome then fail pos (.duplicateGroup group.name)
  modify fun builder =>
    { builder with groups := (group.name, ⟨group.factions⟩) :: builder.groups }

/-- Declares a sub: its first node is stored at once, its body is pending. -/
def declareSub (pos : Pos) (name : String) (body : List (Statement Pos)) : Build Unit := do
  if ((← get).subs.lookup name).isSome then fail pos (.duplicateSub name)
  let id ← addNode (.data .empty)
  modify fun builder =>
    { builder with subs := (name, id) :: builder.subs, pending := builder.pending ++ [(id, body)] }

/-- Takes the declarations out of a script; the other statements are left. -/
def declare : List (Statement Pos) → Build (List (Statement Pos))
  | [] => return []
  | .group pos group :: rest => do
      declareGroup pos group
      declare rest
  | .sub pos name body :: rest => do
      declareSub pos name body
      declare rest
  | statement :: rest => do
      let others ← declare rest
      return statement :: others

/-- Adds the bodies of subs to their nodes. -/
def addBodies : List (NodeId × List (Statement Pos)) → Build Unit
  | [] => return ()
  | (id, body) :: rest => do
      let _ ← addSequence id body
      addBodies rest

/-- Adds statements to the entry, then all pending bodies, which are pending no more. -/
def addScript (statements : List (Statement Pos)) : Build Unit := do
  let _ ← addSequence Graph.entry statements
  let bodies := (← get).pending
  modify fun builder => { builder with pending := [] }
  addBodies bodies

/-- Declarations first, then all statements. -/
def buildScript (script : Script.Program) : Build Unit := do
  addScript (← declare script)

/-- The graph of a script before it is simplified, or the first fault. -/
def rawGraph (script : Script.Program) : Except Fault Graph :=
  match (buildScript script).run start with
  | .ok _ builder => .ok builder.graph
  | .error fault _ => .error fault

end Builder

/-- The simplified graph of a script. -/
def Graph.ofScript (script : Script.Program) : Except Fault Graph :=
  (Builder.rawGraph script).map Graph.simplify

end MissionGraph
