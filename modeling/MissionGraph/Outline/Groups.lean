import MissionGraph.Graph.Basic

/-!
# Naming the groups of a graph

The nodes of a graph hold the factions of groups but not their names. Every list of factions gets a
name in the order in which the nodes hold them.
-/

namespace MissionGraph.Outline

open Mission (Data Factions)
open Script (Group)

/-- The group declared for the given factions. -/
def groupOf? (groups : List Group) (factions : Factions) : Option Group :=
  groups.find? fun group => Factions.canonical ⟨group.factions⟩ == factions.canonical

/-- The groups with one for the given factions, unless there are none or they have a group. -/
def addGroup (groups : List Group) (factions : Factions) : List Group :=
  if factions.isEmpty || (groupOf? groups factions).isSome then groups
  else groups ++ [⟨"group_" ++ Nat.repr groups.length, factions.names⟩]

/-- The lists of factions that a node holds. -/
def factionsOf (node : Node) : List Factions :=
  match node.data? with
  | some data => data.offerGroup.toList ++ data.hostileGroup.toList
  | none => []

/-- The groups of a graph. -/
def groups (graph : Graph) : List Group :=
  (graph.toList.flatMap fun (_, node) => factionsOf node).foldl addGroup []

/-- The name of the group for the given factions. -/
def groupName (groups : List Group) (factions : Factions) : String :=
  ((groupOf? groups factions).map Group.name).getD factions.canonical

end MissionGraph.Outline
