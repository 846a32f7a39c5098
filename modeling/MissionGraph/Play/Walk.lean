import MissionGraph.Graph.Basic
import MissionGraph.Play.Dice
import MissionGraph.Play.Params
import MissionGraph.Play.Report
import MissionGraph.Text.Style

/-!
# Walks through a graph

A walk starts at the entry, takes over what it finds and goes on to the first child, or to the child
that a decision selects, until there is none. It visits at most as many nodes as the graph has.
-/

namespace MissionGraph.Play

open Mission (Data Factions Offer)

/-- Why a walk has no result. -/
inductive RunFault where
  | missingNode (id : NodeId)
  | decisionArity (id : NodeId) (count : Nat)
  | unevaluable (id : NodeId)
  | cycle (id : NodeId)
deriving DecidableEq

namespace RunFault

def message : RunFault → String
  | .missingNode id => "cannot find node " ++ Nat.repr id
  | .decisionArity id count =>
      "decision node " ++ Nat.repr id ++ " has " ++ Nat.repr count ++ " children, expected 2"
  | .unevaluable id => "node " ++ Nat.repr id ++ " cannot be evaluated"
  | .cycle id => "walk does not terminate (at node " ++ Nat.repr id ++ ")"

end RunFault

/-- What a walk tells about its way. -/
inductive Notice where
  | visited (id : NodeId) (content : Content)
  | unknownDecision (nickname : String)
  | unimplemented (id : NodeId)
  | invalidBranch (id : NodeId)
  | inNeitherGroup (id : NodeId) (offerGroup : Option String)
deriving DecidableEq

namespace Notice

/-- What a visited node is. -/
def describe : Content → String
  | .data _ => "data"
  | .decision nickname => "decision " ++ nickname
  | .documentation text => "doc " ++ text
  | .choice _ => "if"

/-- The line of an error at a node. -/
def errorAt (id : NodeId) (message : String) : String :=
  Text.errorLine (message ++ " at id=" ++ Nat.repr id)

def text : Notice → String
  | .visited id content => Text.grey ("processing: " ++ Nat.repr id ++ " " ++ describe content)
  | .unknownDecision nickname =>
      Text.warningLine ("unknown decision " ++ nickname ++ ", assume false")
  | .unimplemented id => errorAt id "unimplemented"
  | .invalidBranch id => errorAt id "invalid branch node"
  | .inNeitherGroup id offerGroup => errorAt id (offerGroup.getD "<none>" ++ " not in either")

/-- The notice is only of interest to someone who follows every step. -/
def isTrace : Notice → Bool
  | .visited _ _ => true
  | _ => false

end Notice

/-- What comes of a walk, and what it told on its way. -/
structure Outcome where
  notices : List Notice
  result : Except RunFault Report

namespace Outcome

/-- The outcome with notices that came before. -/
def after (outcome : Outcome) (earlier : List Notice) : Outcome :=
  { outcome with notices := earlier ++ outcome.notices }

/-- The lines of the notices, with or without those about every visited node. -/
def log (outcome : Outcome) (trace : Bool) : List String :=
  (outcome.notices.filter fun notice => trace || !notice.isTrace).map Notice.text

end Outcome

/-- What a walk carries along. -/
structure Traveller where
  report : Report
  dice : Dice

/-- What follows a visit. -/
inductive Turn where
  | goOn (id : NodeId) (traveller : Traveller)
  | finish (report : Report)
  | fault (fault : RunFault)

/-- The factions that a stored node offers the mission for, if it lists any. -/
def offerGroupAt (graph : Graph) (id : NodeId) : Except RunFault (Option Factions) :=
  match graph.get? id with
  | none => .error (.missingNode id)
  | some node => .ok ((node.data?.bind Data.offerGroup).filter fun factions => !factions.isEmpty)

/-- The offering faction is among those of a group. -/
def Params.matches (params : Params) (factions : Factions) : Bool :=
  params.offerGroup.any factions.includes

/-- Which way a walk takes at a decision; none if there is no way. -/
abbrev Decided := Except RunFault (List Notice × Option NodeId)

/-- A test for groups: the first child if it is for the offering faction, else the second if that is
for it too or for no group at all. -/
def decideGroup (graph : Graph) (params : Params) (id first second : NodeId) : Decided := do
  match ← offerGroupAt graph first with
  | none => return ([.invalidBranch id], none)
  | some factions =>
      if params.matches factions then
        return ([], some first)
      else
        match ← offerGroupAt graph second with
        | none => return ([], some second)
        | some others =>
            if params.matches others then
              return ([], some second)
            else
              return ([.inNeitherGroup id params.offerGroup], none)

/-- A named condition: the first child if it holds, else the second. A condition without an answer does
not hold. -/
def decideNamed (params : Params) (nickname : String) (first second : NodeId) :
    List Notice × NodeId :=
  match params.condition? nickname with
  | some true => ([], first)
  | some false => ([], second)
  | none => ([.unknownDecision nickname], second)

/-- Which way leads on from a decision. -/
def chooseWay (graph : Graph) (params : Params) (id : NodeId) (nickname : String) :
    List NodeId → Decided
  | [first, second] =>
      if isBranch nickname then decideGroup graph params id first second
      else
        let (notices, next) := decideNamed params nickname first second
        .ok (notices, some next)
  | children => .error (.decisionArity id children.length)

/-- The offer that counts: the only one, or one of several by chance. -/
def chooseOffer (dice : Dice) : List Offer → Option Offer × Dice
  | [] => (none, dice)
  | [offer] => (some offer, dice)
  | offers =>
      let (index, rest) := dice.roll offers.length
      (offers[index]?, rest)

namespace Traveller

/-- Takes over the values of a data node. -/
def takeData (traveller : Traveller) (data : Data) : Traveller :=
  let (offer, dice) := chooseOffer traveller.dice data.offers
  ⟨traveller.report.addData data offer, dice⟩

def takeDocumentation (traveller : Traveller) (text : String) : Traveller :=
  { traveller with report := traveller.report.addDocumentation text }

/-- On to the first child, or to the end. -/
def goAhead (traveller : Traveller) : List NodeId → Turn
  | [] => .finish traveller.report
  | child :: _ => .goOn child traveller

end Traveller

/-- A visit to a stored node. -/
def visit (graph : Graph) (params : Params) (id : NodeId) (node : Node) (traveller : Traveller) :
    List Notice × Turn :=
  match node.content with
  | .documentation text => ([], (traveller.takeDocumentation text).goAhead node.children)
  | .data data =>
      if data.implemented then ([], (traveller.takeData data).goAhead node.children)
      else ([.unimplemented id], .finish traveller.report.fail)
  | .decision nickname =>
      match chooseWay graph params id nickname node.children with
      | .error fault => ([], .fault fault)
      | .ok (notices, none) => (notices, .finish traveller.report.fail)
      | .ok (notices, some next) => (notices, .goOn next traveller)
  | .choice _ => ([], .fault (.unevaluable id))

/-- A walk from a node on, with at most the given count of visits. -/
def walk (graph : Graph) (params : Params) : Nat → NodeId → Traveller → Outcome
  | 0, id, _ => ⟨[], .error (.cycle id)⟩
  | visits + 1, id, traveller =>
      match graph.get? id with
      | none => ⟨[], .error (.missingNode id)⟩
      | some node =>
          let (notices, turn) := visit graph params id node traveller
          let told := .visited id node.content :: notices
          match turn with
          | .fault fault => ⟨told, .error fault⟩
          | .finish report => ⟨told, .ok report⟩
          | .goOn next traveller => (walk graph params visits next traveller).after told

/-- A walk through the whole graph from its entry on. -/
def run (graph : Graph) (params : Params) (seed : UInt64) : Outcome :=
  walk graph params graph.size Graph.entry ⟨.empty, .ofSeed seed⟩

end MissionGraph.Play
