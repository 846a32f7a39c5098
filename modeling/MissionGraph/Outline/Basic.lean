import MissionGraph.Graph.Simplify
import MissionGraph.Outline.Chains

/-!
# Outlines

An outline is a graph cut into trees. A node is written where it is used if that is the only use of it,
and as a sub of its own otherwise; every other use is a call. The outline of a node is the tree of the
nodes written there.
-/

namespace MissionGraph

open Mission (Data Factions Field)
open Script (Block Condition Group Statement)

/-- The tree of the nodes that are written together. -/
inductive Outline where
  /-- No node has this number, so nothing is written. -/
  | missing (id : NodeId)
  /-- The node is being written already. -/
  | reopened (id : NodeId)
  /-- A call of the sub that the node is written as. -/
  | call (id : NodeId)
  /-- A node with tests for its children; a child without a test is for all other cases. -/
  | choice (id : NodeId) (tests : List Condition) (children : List Outline)
  /-- A node with statements of its own and what follows it. -/
  | step (id : NodeId) (statements : List (Statement Unit)) (children : List Outline)

namespace Outline

/-! ## What an outline says -/

/-- The name of the sub for a node. -/
def subName (id : NodeId) : String :=
  "node_" ++ Nat.repr id

/-- A condition as a block with a test shows it. -/
def asTest : Condition → Condition
  | .otherwise => .named "else"
  | condition => condition

mutual

/-- The statements of an outline. -/
def statements : Outline → List (Statement Unit)
  | .missing _ => []
  | .reopened _ => []
  | .call id => [.call () (subName id)]
  | .choice _ tests children => [.choice () (blocks tests children)]
  | .step _ own children => own ++ allStatements children

/-- The statements of outlines one after the other. -/
def allStatements : List Outline → List (Statement Unit)
  | [] => []
  | outline :: rest => outline.statements ++ allStatements rest

/-- A block for each outline, with its test as long as there are tests. -/
def blocks : List Condition → List Outline → List (Block Unit)
  | _, [] => []
  | [], outline :: rest => .mk .otherwise outline.statements :: blocks [] rest
  | test :: tests, outline :: rest => .mk (asTest test) outline.statements :: blocks tests rest

end

mutual

/-- The numbers of the nodes that are called. -/
def calls : Outline → List NodeId
  | .missing _ => []
  | .reopened _ => []
  | .call id => [id]
  | .choice _ _ children => allCalls children
  | .step _ _ children => allCalls children

def allCalls : List Outline → List NodeId
  | [] => []
  | outline :: rest => outline.calls ++ allCalls rest

end

mutual

/-- The numbers of the nodes that are written. -/
def written : Outline → List NodeId
  | .missing _ => []
  | .reopened id => [id]
  | .call _ => []
  | .choice id _ children => id :: allWritten children
  | .step id _ children => id :: allWritten children

def allWritten : List Outline → List NodeId
  | [] => []
  | outline :: rest => outline.written ++ allWritten rest

end

/-! ## The outline of a node -/

/-- What is known of a graph before it is cut into outlines: the graph with its chains of decisions
joined, the references to its nodes, the tests of its decisions, and its groups. -/
structure Plan where
  graph : Graph
  references : References
  tests : List (NodeId × Tests)
  groups : List Group

namespace Plan

/-- The fields of a data node in the order in which they are written. The group that offers the
mission is left out where the block around the node tests for it. -/
def fields (plan : Plan) (data : Data) (inGroupBlock : Bool) : List Field :=
  data.weight.toList.map .weight
    ++ (data.zones.filter (!·.isEmpty)).toList.map .zones
    ++ (if data.offers.isEmpty then [] else [.offers data.offers])
    ++ (if inGroupBlock then [] else
      (data.offerGroup.filter (!·.isEmpty)).toList.map fun set => .offerGroup (groupName plan.groups set))
    ++ (data.hostileGroup.filter (!·.isEmpty)).toList.map (fun set => .hostileGroup (groupName plan.groups set))
    ++ data.reward.toList.map .reward
    ++ data.failure.toList.map .failure
    ++ data.objectives.map .objective
    ++ data.difficulty.toList.map .difficulty
    ++ data.comms.map .comm

/-- The statements of a data node. The mark of a missing mission comes last, so that it counts for this
node. -/
def dataStatements (plan : Plan) (data : Data) (inGroupBlock : Bool) : List (Statement Unit) :=
  (plan.fields data inGroupBlock).map (.field ())
    ++ if data.implemented then [] else [.unimplemented ()]

/-- A child can be written right behind its parent: it is used only here, and its first field would
not go into the parent. -/
def continues (plan : Plan) (parent : Node) (child : NodeId) : Bool :=
  plan.references.count child ≤ 1 &&
    match plan.graph.get? child with
    | none => false
    | some node =>
        match node.data? with
        | none => true
        | some data =>
            match plan.fields data false, parent.data? with
            | [], _ => false
            | first :: _, some parentData =>
                !parentData.accepts (parentData.kind (1 < parent.children.length)) first
            | _ :: _, none => true

/-- The node has tests for its children. -/
def isTest : Content → Bool
  | .choice _ | .decision _ => true
  | .documentation _ | .data _ => false

/-- The tests for the children of a decision or choice. -/
def testsAt (plan : Plan) (id : NodeId) (content : Content) : List Condition :=
  match content with
  | .choice conditions => conditions
  | _ => (testsFor plan.tests id).toList

/-- What a node other than a decision or choice says by itself. -/
def ownStatements (plan : Plan) (content : Content) (inGroupBlock : Bool) : List (Statement Unit) :=
  match content with
  | .data data => plan.dataStatements data inGroupBlock
  | .documentation text => [.doc () text]
  | _ => []

/-- The outline of a node. The nodes that have not been opened on the way to it are listed; every node
is opened at most once on the way. -/
def outline (plan : Plan) (unopened : List NodeId) (id : NodeId) (inGroupBlock : Bool) : Outline :=
  match plan.graph.get? id with
  | none => .missing id
  | some node =>
      if _member : id ∈ unopened then
        let block (child : NodeId) (inGroupBlock : Bool) : Outline :=
          if 1 < plan.references.count child then .call child
          else plan.outline (unopened.erase id) child inGroupBlock
        if isTest node.content then
          let tests := plan.testsAt id node.content
          let tested := List.zipWith (fun test child => block child test.isGroup) tests node.children
          let other := if tests.length < node.children.length then node.children.getLast? else none
          .choice id (tests.take node.children.length) (tested ++ other.toList.map (block · false))
        else
          .step id (plan.ownStatements node.content inGroupBlock)
            (node.children.dropLast.map .call ++ node.children.getLast?.toList.map fun last =>
              if plan.continues node last then plan.outline (unopened.erase id) last false
              else .call last)
      else .reopened id
termination_by unopened.length
decreasing_by
  all_goals exact Search.length_erase_lt _member

/-- The outline of a whole node, from the entry or as a sub. -/
def outlineAt (plan : Plan) (id : NodeId) : Outline :=
  plan.outline plan.graph.ids id false

/-- The outlines of the nodes that are called: always the first called number that is left, in
ascending order. -/
def subs (plan : Plan) (left called : List NodeId) : List (NodeId × Outline) :=
  match _found : left.find? fun id => decide (id ∈ called) with
  | none => []
  | some id =>
      let outline := plan.outlineAt id
      (id, outline) :: plan.subs (left.erase id) (outline.calls ++ called)
termination_by left.length
decreasing_by exact Search.length_erase_lt (List.mem_of_find?_eq_some _found)

/-- The plan for a graph, which is simplified first. -/
def ofGraph (graph : Graph) : Except GraphFault Plan := do
  let simple := graph.simplify
  let references := simple.references Graph.entry
  let groups := Outline.groups simple
  let tests ← Outline.tests simple groups references
  return ⟨joinChains references tests simple.ids simple, references, tests, groups⟩

end Plan

end Outline

end MissionGraph
