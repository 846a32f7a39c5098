import Mathlib
import MissionGraph.Proofs.Build.Steps
import MissionGraph.Proofs.Outline.Openings

/-!
# Joined chains taken apart again

A choice is taken apart into a chain of decisions with two ways out. The first decision has the number of the
choice, and each of the others needs a number of its own. Joining loses nothing: with the numbers of the decisions
that were joined, taking all choices apart gives back the graph, up to the spelling of the nickname of branches.
-/

namespace MissionGraph

open Script (Condition)

/-- The node with the nickname of branches in its usual spelling. -/
def Node.plainBranch (node : Node) : Node :=
  match node.content with
  | .decision nickname => ⟨.decision (if isBranch nickname then branchNickname else nickname), node.children⟩
  | _ => node

namespace Graph

/-- The graph with the nickname of branches in its usual spelling. -/
def plainBranches (graph : Graph) : Graph :=
  { graph with nodes := graph.nodes.map fun _ node => node.plainBranch }

theorem get?_plainBranches (graph : Graph) (id : NodeId) :
    graph.plainBranches.get? id = (graph.get? id).map Node.plainBranch := by
  simp [plainBranches, get?]

end Graph

namespace Outline

/-- Decisions under the given numbers, one behind the other on the second way. Each tests its own condition; the
last two children are the ways out of the last one. -/
def unchain : List NodeId → List Condition → List NodeId → List (NodeId × Node)
  | [id], condition :: _, children => [(id, ⟨.decision (condition.nickname?.getD ""), children⟩)]
  | id :: next :: ids, condition :: conditions, child :: children =>
      (id, ⟨.decision (condition.nickname?.getD ""), [child, next]⟩) :: unchain (next :: ids) conditions children
  | _, _, _ => []

/-- A node taken apart, if it is a choice. -/
def unjoinNode (names : NodeId → List NodeId) (id : NodeId) (node : Node) : List (NodeId × Node) :=
  match node.content with
  | .choice conditions => unchain (id :: names id) conditions node.children
  | _ => [(id, node)]

/-- The nodes of a graph with all choices taken apart. -/
def unjoinNodes (names : NodeId → List NodeId) (graph : Graph) : List (NodeId × Node) :=
  graph.toList.flatMap fun stored => unjoinNode names stored.1 stored.2

/-- The graph with all choices taken apart, with the given numbers for the further decisions of each choice. -/
def unjoin (names : NodeId → List NodeId) (graph : Graph) : Graph :=
  { graph with nodes := .ofList (unjoinNodes names graph) compare }

variable {graph joined : Graph} {groups : List Script.Group} {references : References}
  {tests : List (NodeId × Tests)} {id next : NodeId} {conditions : List Condition} {children decisions : List NodeId}

/-! ## What a chain is made of -/

/-- The first test of a decision goes back to the decision; a second one is for a group. -/
theorem Readable.testsFor_eq (readable : Readable graph groups references tests) {nickname : String} {one two : NodeId}
    (found : graph.get? id = some ⟨.decision nickname, [one, two]⟩) :
    (∀ ways, Node.plainBranch ⟨.decision ((testsFor tests id).first.nickname?.getD ""), ways⟩ =
      Node.plainBranch ⟨.decision nickname, ways⟩) ∧
      ∀ second ∈ (testsFor tests id).second, ∃ name, second = .group name := by
  have isTest := testsOf_eq readable.tests found
  rw [testsOf] at isTest
  split at isTest
  · rename_i branches
    split at isTest
    · rw [← Except.ok.inj isTest]
      refine ⟨fun ways => ?_, fun second member => ?_⟩
      · have usual : isBranch branchNickname = true := (Text.sameLetters_iff _ _).mpr rfl
        simp only [Node.plainBranch, Condition.nickname?, Option.getD_some, usual, branches, if_true]
      · obtain ⟨factions, _, rfl⟩ := Option.map_eq_some_iff.mp member
        exact ⟨_, rfl⟩
    · cases isTest
  · rw [← Except.ok.inj isTest]
    exact ⟨fun _ => rfl, fun second member => absurd member (Option.not_mem_none second)⟩

namespace Chain

/-- A chain with a test for every way out ends with a test for a group. -/
theorem exists_getLast?_eq_group (chain : Chain graph references tests id conditions children decisions)
    (readable : Readable graph groups references tests) (full : children.length = conditions.length) :
    ∃ name, conditions.getLast? = some (.group name) := by
  induction chain with
  | @last id one two nickname found =>
      cases second : (testsFor tests id).second with
      | none =>
          rw [Tests.toList, second] at full
          cases full
      | some condition =>
          obtain ⟨name, rfl⟩ := (readable.testsFor_eq found).2 condition second
          exact ⟨name, by rw [Tests.toList, second]; rfl⟩
  | @cons id one next nickname conditions children decisions found alone rest ih =>
      obtain ⟨name, isLast⟩ := ih (Nat.succ.inj full)
      exact ⟨name, by rw [List.getLast?_cons, isLast]; rfl⟩

/-- A chain taken apart gives back the decisions it is made of. -/
theorem unchain_eq (chain : Chain graph references tests id conditions children decisions)
    (readable : Readable graph groups references tests) :
    (unchain decisions conditions children).map Prod.fst = decisions ∧
      ∀ key node, (key, node) ∈ unchain decisions conditions children →
        (graph.get? key).map Node.plainBranch = some node.plainBranch := by
  induction chain with
  | last found =>
      refine ⟨rfl, fun key node member => ?_⟩
      cases List.mem_singleton.mp member
      rw [found, (readable.testsFor_eq found).1]
      rfl
  | cons found alone rest ih =>
      obtain ⟨others, rfl, _⟩ := rest.decisions_eq_cons
      obtain ⟨keys, agree⟩ := ih
      refine ⟨congrArg (List.cons _) keys, fun key node member => ?_⟩
      rcases List.mem_cons.mp member with same | later
      · cases same
        rw [found, (readable.testsFor_eq found).1]
        rfl
      · exact agree key node later

end Chain

/-- A node of the joined graph taken apart gives back the nodes that it stands for. -/
theorem Stands.unjoinNode_eq (readable : Readable graph groups references tests) {node : Node} {parts : List NodeId}
    (stands : Stands graph references tests id node parts) (names : NodeId → List NodeId)
    (named : parts = id :: names id) :
    (unjoinNode names id node).map Prod.fst = parts ∧
      ∀ key part, (key, part) ∈ unjoinNode names id node →
        (graph.get? key).map Node.plainBranch = some part.plainBranch := by
  cases stands with
  | chain chain =>
      rw [unjoinNode, ← named]
      exact chain.unchain_eq readable
  | same found =>
      have single : unjoinNode names id node = [(id, node)] := by
        obtain ⟨content, ways⟩ := node
        cases content with
        | choice conditions => exact absurd found (readable.plain id conditions ways)
        | _ => rfl
      rw [single]
      refine ⟨rfl, fun key part member => ?_⟩
      cases List.mem_singleton.mp member
      rw [found]
      rfl

/-! ## Taking the joined graph apart -/

namespace Divided

variable {parts : NodeId → List NodeId}

/-- The nodes of the joined graph and the decisions that were joined are the nodes of the graph. -/
theorem ids_perm (divided : Divided graph references tests joined parts) :
    (joined.ids ++ joined.ids.flatMap fun id => (parts id).tail).Perm graph.ids := by
  refine List.Perm.trans ?_ divided.whole
  rw [List.flatMap_congr fun id => divided.parts_eq_cons]
  simpa only [List.map_id'] using List.map_append_flatMap_perm joined.ids (fun id => id) fun id => (parts id).tail

/-- Taking apart lists the parts of each node under their numbers. -/
theorem unjoinNodes_eq (divided : Divided graph references tests joined parts)
    (readable : Readable graph groups references tests) :
    ((unjoinNodes (fun id => (parts id).tail) joined).map Prod.fst).Perm graph.ids ∧
      ∀ key part, (key, part) ∈ unjoinNodes (fun id => (parts id).tail) joined →
        (graph.get? key).map Node.plainBranch = some part.plainBranch := by
  have each {stored : NodeId × Node} (member : stored ∈ joined.toList) :=
    have found := Graph.mem_toList_iff.mp member
    (divided.stands _ _ found).unjoinNode_eq readable (fun id => (parts id).tail)
      (divided.parts_eq_cons (Graph.mem_ids_iff.mpr ⟨_, found⟩))
  constructor
  · rw [unjoinNodes, List.map_flatMap, List.flatMap_congr fun stored member => (each member).1,
      ← List.flatMap_map Prod.fst parts, Graph.map_fst_toList]
    exact divided.whole
  · intro key part member
    obtain ⟨stored, isStored, isPart⟩ := List.mem_flatMap.mp member
    exact (each isStored).2 key part isPart

/-- With the numbers of the decisions that were joined, taking all choices apart gives back the graph. -/
theorem get?_unjoin (divided : Divided graph references tests joined parts)
    (readable : Readable graph groups references tests) (key : NodeId) :
    (unjoin (fun id => (parts id).tail) joined).plainBranches.get? key = graph.plainBranches.get? key := by
  obtain ⟨keys, agree⟩ := divided.unjoinNodes_eq readable
  rw [Graph.get?_plainBranches, Graph.get?_plainBranches, unjoin, Graph.get?]
  by_cases stored : key ∈ graph.ids
  · obtain ⟨⟨_, part⟩, listed, rfl⟩ := List.mem_map.mp (keys.mem_iff.mpr stored)
    rw [Std.ExtTreeMap.getElem?_ofList_of_mem Std.ReflCmp.compare_self ?_ listed, agree _ part listed]
    · rfl
    · have nodup := List.pairwise_map.mp (keys.nodup_iff.mpr graph.nodup_ids)
      exact nodup.imp fun different same => different (by simpa using same)
  · have missing := Graph.get?_eq_none_iff.mpr stored
    rw [← keys.mem_iff] at stored
    rw [Std.ExtTreeMap.getElem?_ofList_of_contains_eq_false (by simpa using stored), missing]

end Divided

/-- The decisions that are joined are children of no node any more. -/
theorem not_child_of_joinChains (counted : Counted references joined) (queue : List NodeId)
    (gone : ∀ key ∈ graph.ids, joined.get? key = none → key ∉ joined.ids.flatMap joined.children) :
    ∀ key ∈ graph.ids, (joinChains references tests queue joined).get? key = none →
      key ∉ (joinChains references tests queue joined).ids.flatMap
        (joinChains references tests queue joined).children := by
  fun_induction Outline.joinChains references tests queue joined with
  | case1 joined => exact gone
  | case3 joined id rest _ ih => exact ih counted gone
  | case2 joined id rest node next nextNode found ih =>
      refine ih (counted.join tests found) fun key stored missing => ?_
      obtain ⟨foundId, _, foundNext, different, _⟩ := joinable?_eq_some_iff.mp found
      have moved := children_join different foundId foundNext rfl (counted.children_eq tests found)
      rw [get?_join] at missing
      split at missing
      · cases missing
      · split at missing
        · rename_i isNext
          exact isNext ▸ (counted.unused tests found).2
        · exact fun below => gone key stored missing (moved.mem_iff.mpr (List.mem_cons_of_mem _ below))

/-- Joining needs no new number. -/
theorem nextId_joinChains (queue : List NodeId) (bounded : joined.Bounded) :
    (joinChains references tests queue joined).nextId = joined.nextId := by
  fun_induction Outline.joinChains references tests queue joined with
  | case1 joined => rfl
  | case3 joined id rest _ ih => exact ih bounded
  | case2 joined id rest node next nextNode found ih =>
      obtain ⟨foundId, _⟩ := joinable?_eq_some_iff.mp found
      have same : (join tests joined id node next nextNode).nextId = joined.nextId :=
        Nat.max_eq_left (bounded id node foundId)
      refine (ih fun key keyNode foundKey => ?_).trans same
      rw [get?_join] at foundKey
      rw [same]
      split at foundKey
      · rename_i isId
        exact isId ▸ bounded id node foundId
      · split at foundKey
        · cases foundKey
        · exact bounded key keyNode foundKey

/-- Joining loses nothing. A choice has as many tests as children, of which the last is then for a group, or one
test less. Taken apart, with numbers that are not in use, the choices give back the graph. -/
theorem unjoin_joinChains (readable : Readable graph groups (graph.references Graph.entry) tests)
    (rooted : graph.Rooted) :
    let joined := joinChains (graph.references Graph.entry) tests graph.ids graph
    (∀ id conditions children, joined.get? id = some ⟨.choice conditions, children⟩ →
      (children.length = conditions.length ∧ ∃ name, conditions.getLast? = some (.group name)) ∨
        children.length = conditions.length + 1) ∧
    ∃ names : NodeId → List NodeId,
      (∀ id conditions children, joined.get? id = some ⟨.choice conditions, children⟩ →
        (names id).length + 2 = children.length) ∧
      (joined.ids ++ joined.ids.flatMap names).Nodup ∧
      (∀ name ∈ joined.ids.flatMap names, ∀ parent, ¬ joined.Child parent name) ∧
      (unjoin names joined).plainBranches.nodes = graph.plainBranches.nodes ∧
      (graph.Bounded → joined.nextId = graph.nextId) := by
  intro joined
  obtain ⟨parts, divided⟩ := (Divided.refl graph (graph.references Graph.entry) tests).joinChains readable graph.ids
  have counted := Counted.of_tests rooted readable.tests
  have nodup := divided.ids_perm.nodup_iff.mpr graph.nodup_ids
  refine ⟨fun id conditions children found => ?_, fun id => (parts id).tail, fun id conditions children found => ?_,
    nodup, fun name member parent edge => ?_, ?_,
    fun bounded => nextId_joinChains graph.ids bounded⟩
  · have chain := divided.chain readable found
    obtain ⟨_, least, most⟩ := chain.lengths
    rcases Nat.lt_or_eq_of_le least with less | same
    · exact .inr (Nat.le_antisymm most less)
    · exact .inl ⟨same.symm, chain.exists_getLast?_eq_group readable same.symm⟩
  · obtain ⟨others, isCons, enough⟩ := (divided.chain readable found).decisions_eq_cons
    dsimp only
    rw [isCons]
    exact enough
  · have stored := divided.ids_perm.mem_iff.mp (List.mem_append_right _ member)
    have missing := Graph.get?_eq_none_iff.mpr fun kept =>
      (List.nodup_append.mp nodup).2.2 name kept name member rfl
    refine not_child_of_joinChains counted graph.ids (fun key stored missing => ?_) name stored missing
      (Graph.mem_uses_iff.mpr ⟨parent, edge⟩)
    exact absurd stored (Graph.get?_eq_none_iff.mp missing)
  · exact Std.ExtTreeMap.ext_getElem? fun {key} => divided.get?_unjoin readable key

/-- A chain that ends with two groups, and below it a chain with an open end. -/
def twoChains : Graph :=
  Graph.empty
    |>.insert 2 ⟨.decision "Pre_battle", [3, 5]⟩
    |>.insert 3 ⟨.documentation "shared", []⟩
    |>.insert 4 ⟨.data (.offeredBy ⟨["a"]⟩), [7]⟩
    |>.insert 5 ⟨.decision "BRANCH", [4, 6]⟩
    |>.insert 6 ⟨.data (.offeredBy ⟨["b"]⟩), []⟩
    |>.insert 7 ⟨.decision "Success", [3, 8]⟩
    |>.insert 8 ⟨.decision "Timeout", [3, 3]⟩

def testsOfTwoChains : List (NodeId × Tests) :=
  [(2, ⟨.named "Pre_battle", none⟩), (5, ⟨.group "group_0", some (.group "group_1")⟩),
    (7, ⟨.named "Success", none⟩), (8, ⟨.named "Timeout", none⟩)]

def twoChainsJoined : Graph :=
  joinChains (twoChains.references Graph.entry) testsOfTwoChains twoChains.ids twoChains

/-- Both chains are joined, and the joined graph can be taken apart. -/
theorem unjoin_joinChains_twoChains :
    twoChains.Rooted ∧
      Readable twoChains (Outline.groups twoChains) (twoChains.references Graph.entry) testsOfTwoChains ∧
      twoChainsJoined.get? 2 =
        some ⟨.choice [.named "Pre_battle", .group "group_0", .group "group_1"], [3, 4, 6]⟩ ∧
      twoChainsJoined.get? 7 = some ⟨.choice [.named "Success", .named "Timeout"], [3, 3, 3]⟩ ∧
      ∃ names : NodeId → List NodeId, (names 2).length + 2 = 3 ∧
        (unjoin names twoChainsJoined).plainBranches.nodes = twoChains.plainBranches.nodes := by
  have rooted : twoChains.Rooted := Graph.unreachable_eq_nil_iff.mp (by cbv)
  have sound : ∀ id node, twoChains.get? id = some node → node.Sound :=
    Graph.forall_stored_iff.mpr (by decide +kernel)
  have readable : Readable twoChains (Outline.groups twoChains) (twoChains.references Graph.entry) testsOfTwoChains :=
    ⟨fun id _ _ found => sound id _ found, by cbv⟩
  have first : twoChainsJoined.get? 2 =
      some ⟨.choice [.named "Pre_battle", .group "group_0", .group "group_1"], [3, 4, 6]⟩ := by cbv
  obtain ⟨_, names, enough, _, _, same, _⟩ := unjoin_joinChains readable rooted
  exact ⟨rooted, readable, first, by cbv, names, enough 2 _ _ first, same⟩

end Outline

end MissionGraph
