import MissionGraph.Outline.Groups
import MissionGraph.Record.Fault

/-!
# What decisions test

A decision with an ordinary nickname tests the condition of that name. One with the nickname of
branches tests whether the mission is offered by the group that its first child names, and then, if its
second child names a group and is used only here, by that one.
-/

namespace MissionGraph.Outline

open Mission (Factions)
open Script (Condition Group)

/-- The tests of a decision: one for its first child, and perhaps one for its second. -/
structure Tests where
  first : Condition
  second : Option Condition
deriving DecidableEq

namespace Tests

def toList (tests : Tests) : List Condition :=
  tests.first :: tests.second.toList

end Tests

/-- How often each node is referred to. -/
abbrev References := Std.ExtTreeMap NodeId Nat

/-- The count of references to a node. -/
def References.count (references : References) (id : NodeId) : Nat :=
  references[id]?.getD 0

/-- The group that a data node names as the one that offers the mission. -/
def offerGroup? (graph : Graph) (id : NodeId) : Option Factions := do
  let node ← graph.get? id
  let data ← node.data?
  data.offerGroup.filter (!·.isEmpty)

/-- The tests of the decision with the given nickname and children. -/
def testsOf (graph : Graph) (groups : List Group) (references : References) (id : NodeId)
    (nickname : String) (children : List NodeId) : Except GraphFault Tests :=
  match children with
  | [yes, no] =>
      if isBranch nickname then
        match offerGroup? graph yes with
        | some factions =>
            let other := if references.count no ≤ 1 then offerGroup? graph no else none
            .ok ⟨.group (groupName groups factions), other.map fun set => .group (groupName groups set)⟩
        | none => .error (.invalidBranch id)
      else .ok ⟨.named nickname, none⟩
  | _ => .error (.decisionArity id children.length)

/-- The tests of all decisions of a graph. -/
def tests (graph : Graph) (groups : List Group) (references : References) :
    Except GraphFault (List (NodeId × Tests)) :=
  (graph.toList.filterMap fun (id, node) => node.nickname?.map fun nickname => (id, nickname, node.children)).mapM
    fun (id, nickname, children) =>
      (testsOf graph groups references id nickname children).map fun found => (id, found)

end MissionGraph.Outline
