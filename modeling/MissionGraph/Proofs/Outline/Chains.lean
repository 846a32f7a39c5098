import MissionGraph.Proofs.Build.Sound
import MissionGraph.Proofs.Outline.Plans

/-!
# Joined chains of decisions

Joining puts a chain of decisions into one choice. Every node of the joined graph is a node of the graph
itself, or it is a choice that stands for a chain of its decisions. No decision is lost, and all other nodes
are used as often as before.
-/

namespace MissionGraph.Outline

open Relation
open Script (Condition)

variable {graph joined : Graph} {references : References} {tests : List (NodeId × Tests)} {id next : NodeId}
  {conditions : List Condition} {children decisions : List NodeId}

/-- A chain of decisions from a number on, with the tests and ways out of the chain. From every decision
but the last one the second way leads to the next decision, which is used only there. -/
inductive Chain (graph : Graph) (references : References) (tests : List (NodeId × Tests)) :
    NodeId → List Condition → List NodeId → List NodeId → Prop where
  | last {id one two : NodeId} {nickname : String}
      (found : graph.get? id = some ⟨.decision nickname, [one, two]⟩) :
      Chain graph references tests id (testsFor tests id).toList [one, two] [id]
  | cons {id one next : NodeId} {nickname : String} {conditions : List Condition}
      {children decisions : List NodeId}
      (found : graph.get? id = some ⟨.decision nickname, [one, next]⟩)
      (alone : references.count next ≤ 1)
      (rest : Chain graph references tests next conditions children decisions) :
      Chain graph references tests id ((testsFor tests id).first :: conditions) (one :: children)
        (id :: decisions)

namespace Chain

/-- There are as many tests as ways out, or one test less. -/
theorem lengths (chain : Chain graph references tests id conditions children decisions) :
    2 ≤ children.length ∧ conditions.length ≤ children.length ∧ children.length ≤ conditions.length + 1 := by
  induction chain with
  | @last id one two nickname found =>
      cases second : (testsFor tests id).second <;> simp [Tests.toList, second]
  | cons _ _ _ ih =>
      simp only [List.length_cons]
      omega

theorem decisions_eq_cons (chain : Chain graph references tests id conditions children decisions) :
    ∃ others, decisions = id :: others ∧ others.length + 2 = children.length := by
  induction chain with
  | last found => exact ⟨[], rfl, rfl⟩
  | cons found alone rest ih =>
      obtain ⟨others, rfl, enough⟩ := ih
      exact ⟨_, rfl, congrArg Nat.succ enough⟩

/-- A decision at the open end of a chain prolongs it. -/
theorem snoc (chain : Chain graph references tests id conditions children decisions)
    (isOpen : conditions.length < children.length) (isLast : children.getLast? = some next)
    {nickname : String} {one two : NodeId} (found : graph.get? next = some ⟨.decision nickname, [one, two]⟩)
    (alone : references.count next ≤ 1) :
    Chain graph references tests id (conditions ++ (testsFor tests next).toList) (children.dropLast ++ [one, two])
      (decisions ++ [next]) := by
  induction chain with
  | @last id first second name foundFirst =>
      cases isLast
      cases other : (testsFor tests id).second with
      | none =>
          rw [Tests.toList, other]
          exact .cons foundFirst alone (.last found)
      | some condition =>
          rw [Tests.toList, other] at isOpen
          exact absurd isOpen (Nat.lt_irrefl 2)
  | @cons id first following name conditions children decisions foundFirst aloneFirst rest ih =>
      obtain ⟨several, _⟩ := rest.lengths
      cases children with
      | nil => cases several
      | cons child others =>
          rw [List.getLast?_cons_cons] at isLast
          exact .cons foundFirst aloneFirst (ih (Nat.lt_of_succ_lt_succ isOpen) isLast)

end Chain

/-- What a node of the joined graph stands for: a node of the graph with the same number, or a chain of
decisions. The list names the nodes of the graph. -/
inductive Stands (graph : Graph) (references : References) (tests : List (NodeId × Tests)) (id : NodeId) :
    Node → List NodeId → Prop where
  | same {node : Node} (found : graph.get? id = some node) : Stands graph references tests id node [id]
  | chain {conditions : List Condition} {children decisions : List NodeId}
      (chain : Chain graph references tests id conditions children decisions) :
      Stands graph references tests id ⟨.choice conditions, children⟩ decisions

/-- The nodes of the joined graph stand for all nodes of the graph, each for its own parts. -/
structure Divided (graph : Graph) (references : References) (tests : List (NodeId × Tests)) (joined : Graph)
    (parts : NodeId → List NodeId) : Prop where
  stands : ∀ id node, joined.get? id = some node → Stands graph references tests id node (parts id)
  whole : (joined.ids.flatMap parts).Perm graph.ids

theorem Divided.refl (graph : Graph) (references : References) (tests : List (NodeId × Tests)) :
    Divided graph references tests graph fun id => [id] := by
  refine ⟨fun _ _ found => .same found, ?_⟩
  rw [List.flatMap_singleton']

/-- The parts of a node begin with the node itself. -/
theorem Divided.parts_eq_cons {parts : NodeId → List NodeId} (divided : Divided graph references tests joined parts)
    (member : id ∈ joined.ids) : parts id = id :: (parts id).tail := by
  obtain ⟨node, found⟩ := Graph.mem_ids_iff.mp member
  have stands := divided.stands id node found
  generalize parts id = listed at stands
  cases stands with
  | same _ => rfl
  | chain chain =>
      obtain ⟨others, rfl, _⟩ := chain.decisions_eq_cons
      rfl

/-- What joining chains of decisions keeps. -/
structure Joined (graph : Graph) (references : References) (tests : List (NodeId × Tests)) (joined : Graph) :
    Prop where
  entry : ∃ node, joined.get? Graph.entry = some node
  closed : joined.Closed
  uses : ∀ id node, joined.get? id = some node → joined.uses id = graph.uses id
  edge : ∀ parent child, joined.Child parent child → TransGen graph.Child parent child
  parts : ∃ parts, Divided graph references tests joined parts

namespace Joined

theorem refl (simple : graph.Simple) : Joined graph references tests graph where
  entry := simple.proper.entry
  closed := simple.proper.closed
  uses := fun _ _ _ => rfl
  edge := fun _ _ edge => .single edge
  parts := ⟨_, .refl graph references tests⟩

theorem stands (facts : Joined graph references tests joined) {node : Node} (found : joined.get? id = some node) :
    ∃ parts, Stands graph references tests id node parts := by
  obtain ⟨parts, divided⟩ := facts.parts
  exact ⟨parts id, divided.stands id node found⟩

theorem acyclic (facts : Joined graph references tests joined) (acyclic : graph.Acyclic) : joined.Acyclic := by
  intro id circle
  have further : TransGen (TransGen graph.Child) id id := TransGen.mono facts.edge _ _ circle
  exact acyclic id (transGen_eq_self (r := TransGen graph.Child) ▸ further)

end Joined

/-! ## One joining -/

theorem joinable?_eq_some_iff {node nextNode : Node} :
    joinable? references joined id = some (node, next, nextNode) ↔
      joined.get? id = some node ∧ lastResort? node = some next ∧ joined.get? next = some nextNode ∧
        next ≠ id ∧ references.count next ≤ 1 ∧ nextNode.nickname?.isSome = true := by
  simp only [joinable?, Option.bind_eq_bind, Option.bind_eq_some_iff, Option.ite_none_right_eq_some,
    Option.some.injEq, Prod.mk.injEq]
  constructor
  · rintro ⟨node, found, next, resort, nextNode, foundNext, conditions, rfl, rfl, rfl⟩
    exact ⟨found, resort, foundNext, conditions⟩
  · rintro ⟨found, resort, foundNext, conditions⟩
    exact ⟨node, found, next, resort, nextNode, foundNext, conditions, rfl, rfl, rfl⟩

/-- What the joining starts from: a simple graph of nodes that can be visited, the counts of the uses of its
nodes, and the tests of its decisions. -/
structure Planned (graph : Graph) (groups : List Script.Group) (references : References)
    (tests : List (NodeId × Tests)) : Prop where
  simple : graph.Simple
  sound : ∀ id node, graph.get? id = some node → node.Sound
  count : ∀ id, references.count id = graph.uses id
  tests : Outline.tests graph groups references = .ok tests

/-- A graph of any shape whose decisions have tests, and in which nothing is joined yet. -/
structure Readable (graph : Graph) (groups : List Script.Group) (references : References)
    (tests : List (NodeId × Tests)) : Prop where
  plain : ∀ id conditions children, graph.get? id ≠ some ⟨.choice conditions, children⟩
  tests : Outline.tests graph groups references = .ok tests

section Join

variable {groups : List Script.Group}

theorem Planned.readable (planned : Planned graph groups references tests) :
    Readable graph groups references tests :=
  ⟨fun id _ _ found => planned.sound id _ found, planned.tests⟩

theorem Readable.sound (readable : Readable graph groups references tests) {node : Node}
    (found : graph.get? id = some node) : node.Sound := by
  obtain ⟨content, children⟩ := node
  cases content with
  | data data => trivial
  | documentation text => trivial
  | decision nickname => exact length_children readable.tests found
  | choice conditions => exact readable.plain id conditions children found

/-- A choice stands for a chain of decisions. -/
theorem Divided.chain {parts : NodeId → List NodeId} (divided : Divided graph references tests joined parts)
    (readable : Readable graph groups references tests)
    (found : joined.get? id = some ⟨.choice conditions, children⟩) :
    Chain graph references tests id conditions children (parts id) := by
  have stands := divided.stands id _ found
  generalize parts id = listed at stands
  cases stands with
  | chain chain => exact chain
  | same foundBefore => exact absurd foundBefore (readable.plain id conditions children)

/-- The second child of a decision has no test of its own if it is a decision. -/
theorem Readable.second_eq_none (readable : Readable graph groups references tests) {nickname other : String}
    {one two : NodeId} {ways : List NodeId} (found : graph.get? id = some ⟨.decision nickname, [one, two]⟩)
    (foundTwo : graph.get? two = some ⟨.decision other, ways⟩) : (testsFor tests id).second = none := by
  have unnamed : offerGroup? graph two = none := by
    rw [offerGroup?, foundTwo]
    rfl
  have isTest := testsOf_eq readable.tests found
  rw [testsOf] at isTest
  split at isTest
  · split at isTest
    · rw [unnamed, ite_self] at isTest
      exact congrArg Tests.second (Except.ok.inj isTest).symm
    · cases isTest
  · exact congrArg Tests.second (Except.ok.inj isTest).symm

/-- A node that a decision can be joined to stands for a chain that is open at its end, and its front is the
chain up to there. -/
theorem Stands.front (readable : Readable graph groups references tests) {node : Node} {parts : List NodeId}
    (stands : Stands graph references tests id node parts) (resort : lastResort? node = some next)
    {nickname : String} {ways : List NodeId} (foundNext : graph.get? next = some ⟨.decision nickname, ways⟩) :
    ∃ conditions, Chain graph references tests id conditions node.children parts ∧
      frontOf tests id node = (conditions, node.children.dropLast) ∧
      node.children.getLast? = some next ∧ conditions.length < node.children.length := by
  cases stands with
  | chain chain =>
      rename_i conditions children
      rw [lastResort?] at resort
      dsimp only at resort
      split at resort
      · rename_i isOpen
        exact ⟨conditions, chain, rfl, resort, isOpen⟩
      · cases resort
  | same found =>
      obtain ⟨content, children⟩ := node
      have sound := readable.sound found
      cases content with
      | data data => cases resort
      | documentation text => cases resort
      | choice conditions => exact sound.elim
      | decision name =>
          obtain ⟨one, two, rfl⟩ := List.length_eq_two.mp (show children.length = 2 from sound)
          cases resort
          have single : (testsFor tests id).toList = [(testsFor tests id).first] := by
            rw [Tests.toList, readable.second_eq_none found foundNext]
            rfl
          exact ⟨_, .last found, by rw [single]; rfl, rfl, by rw [single]; exact Nat.lt_succ_self 1⟩

theorem get?_join (node nextNode : Node) (key : NodeId) :
    (join tests joined id node next nextNode).get? key =
      if id = key then some ⟨.choice ((frontOf tests id node).1 ++ (testsFor tests next).toList),
        (frontOf tests id node).2 ++ nextNode.children⟩
      else if next = key then none else joined.get? key := by
  rw [join]
  dsimp only
  rw [Graph.get?_insert]
  split
  · rfl
  · rw [Graph.get?_remove]

/-- Joining makes no new decision. -/
theorem get?_of_join_decision {node nextNode : Node} {key : NodeId} {nickname : String} {ways : List NodeId}
    (found : (join tests joined id node next nextNode).get? key = some ⟨.decision nickname, ways⟩) :
    joined.get? key = some ⟨.decision nickname, ways⟩ ∧ key ≠ id := by
  rw [get?_join] at found
  split at found
  · cases found
  · split at found
    · cases found
    · rename_i notId _
      exact ⟨found, Ne.symm notId⟩

/-- Joining takes one number away. -/
theorem ids_join (tests : List (NodeId × Tests)) {node nextNode : Node} (different : next ≠ id)
    (found : joined.get? id = some node) (foundNext : joined.get? next = some nextNode) :
    joined.ids.Perm (next :: id :: (join tests joined id node next nextNode).ids.erase id) ∧
      (join tests joined id node next nextNode).ids.Perm
        (id :: (join tests joined id node next nextNode).ids.erase id) := by
  have stored : id ∈ (join tests joined id node next nextNode).ids := by
    rw [Graph.mem_ids_iff, get?_join, if_pos rfl]
    exact ⟨_, rfl⟩
  have front := List.perm_cons_erase stored
  refine ⟨List.Perm.trans ?_ (front.cons next), front⟩
  refine (List.perm_ext_iff_of_nodup joined.nodup_ids ?_).mpr fun key => ?_
  · refine List.nodup_cons.mpr ⟨?_, Graph.nodup_ids _⟩
    rw [Graph.mem_ids_iff, get?_join, if_neg different.symm, if_pos rfl]
    rintro ⟨_, impossible⟩
    cases impossible
  · rw [List.mem_cons, Graph.mem_ids_iff, Graph.mem_ids_iff, get?_join]
    by_cases isId : id = key
    · subst isId
      simp [found]
    · by_cases isNext : next = key
      · subst isNext
        simp [foundNext]
      · simp [isId, isNext, Ne.symm isNext]

/-- Two functions that differ at one number only give the same lists for the other numbers. -/
theorem flatMap_erase_congr {ids : List NodeId} (nodup : ids.Nodup) {first second : NodeId → List NodeId}
    (same : ∀ key ∈ ids, key ≠ id → first key = second key) :
    (ids.erase id).flatMap first = (ids.erase id).flatMap second := by
  rw [List.flatMap_def, List.flatMap_def]
  refine congrArg List.flatten (List.map_congr_left fun key member => ?_)
  exact same key (List.mem_of_mem_erase member) (nodup.mem_erase_iff.mp member).1

theorem children_join_of_ne {node nextNode : Node} {key : NodeId} (notId : key ≠ id) (notNext : key ≠ next) :
    (join tests joined id node next nextNode).children key = joined.children key := by
  rw [Graph.children, Graph.children, get?_join, if_neg notId.symm, if_neg notNext.symm]

/-- The children after joining are those before, without the decision that is joined. -/
theorem children_join {node nextNode : Node} {front : List NodeId} (different : next ≠ id)
    (found : joined.get? id = some node) (foundNext : joined.get? next = some nextNode)
    (isFront : (frontOf tests id node).2 = front) (isLast : node.children = front ++ [next]) :
    (joined.ids.flatMap joined.children).Perm
      (next :: (join tests joined id node next nextNode).ids.flatMap
        (join tests joined id node next nextNode).children) := by
  obtain ⟨before, after⟩ := ids_join tests different found foundNext
  have atId : (join tests joined id node next nextNode).children id = front ++ nextNode.children := by
    rw [Graph.children, get?_join, if_pos rfl, isFront]
    rfl
  have others : ((join tests joined id node next nextNode).ids.erase id).flatMap
      (join tests joined id node next nextNode).children =
        ((join tests joined id node next nextNode).ids.erase id).flatMap joined.children := by
    refine flatMap_erase_congr (Graph.nodup_ids _) fun key stored notId => children_join_of_ne notId ?_
    rintro rfl
    obtain ⟨_, foundKey⟩ := Graph.mem_ids_iff.mp stored
    rw [get?_join, if_neg notId.symm, if_pos rfl] at foundKey
    cases foundKey
  refine (before.flatMap_right _).trans (List.Perm.trans ?_ ((after.flatMap_right _).symm.cons next))
  rw [List.flatMap_cons, List.flatMap_cons, List.flatMap_cons, atId, others, Graph.children_of_get? found,
    Graph.children_of_get? foundNext, isLast]
  generalize ((join tests joined id node next nextNode).ids.erase id).flatMap joined.children = rest
  grind

/-- A decision of the graph that can be joined to a node of the joined graph: the node stands for a chain
whose open end leads to the decision. -/
structure Joining (graph : Graph) (references : References) (tests : List (NodeId × Tests)) (joined : Graph)
    (id : NodeId) (node : Node) (decisions : List NodeId) (next : NodeId) (nextNode : Node) : Prop where
  found : joined.get? id = some node
  foundNext : joined.get? next = some nextNode
  foundBefore : graph.get? next = some nextNode
  decision : ∃ nickname one two, nextNode = ⟨.decision nickname, [one, two]⟩
  different : next ≠ id
  alone : references.count next ≤ 1
  chain : ∃ conditions, Chain graph references tests id conditions node.children decisions ∧
    frontOf tests id node = (conditions, node.children.dropLast) ∧ conditions.length < node.children.length
  isLast : node.children.getLast? = some next

variable {node nextNode : Node}

theorem Divided.joining {parts : NodeId → List NodeId} (divided : Divided graph references tests joined parts)
    (readable : Readable graph groups references tests)
    (found : joinable? references joined id = some (node, next, nextNode)) :
    Joining graph references tests joined id node (parts id) next nextNode ∧ parts next = [next] := by
  obtain ⟨foundId, resort, foundNext, different, alone, isDecision⟩ := joinable?_eq_some_iff.mp found
  have nextStands := divided.stands next nextNode foundNext
  generalize parts next = listed at nextStands
  cases nextStands with
  | chain chain => cases isDecision
  | same foundBefore =>
      have sound := readable.sound foundBefore
      obtain ⟨content, ways⟩ := nextNode
      cases content with
      | data data => cases isDecision
      | documentation text => cases isDecision
      | choice conditions => cases isDecision
      | decision nickname =>
          obtain ⟨one, two, rfl⟩ := List.length_eq_two.mp (show ways.length = 2 from sound)
          obtain ⟨conditions, chain, isFront, isLast, isOpen⟩ :=
            (divided.stands id node foundId).front readable resort foundBefore
          exact ⟨⟨foundId, foundNext, foundBefore, ⟨nickname, one, two, rfl⟩, different, alone,
            ⟨conditions, chain, isFront, isOpen⟩, isLast⟩, rfl⟩

namespace Joining

/-- The children after the joining are those before, without the decision that is joined. -/
theorem moved (joining : Joining graph references tests joined id node decisions next nextNode) :
    (joined.ids.flatMap joined.children).Perm
      (next :: (join tests joined id node next nextNode).ids.flatMap
        (join tests joined id node next nextNode).children) := by
  obtain ⟨conditions, _, isFront, _⟩ := joining.chain
  exact children_join joining.different joining.found joining.foundNext (congrArg Prod.snd isFront)
    (List.dropLast_append_getLast? next joining.isLast).symm

/-- The decision that is joined was used only once, and it is not the entry. -/
theorem unused (joining : Joining graph references tests joined id node decisions next nextNode)
    (planned : Planned graph groups references tests) (facts : Joined graph references tests joined) :
    next ≠ Graph.entry ∧ next ∉ (join tests joined id node next nextNode).ids.flatMap
      (join tests joined id node next nextNode).children := by
  have used : joined.uses next ≤ 1 := by
    rw [facts.uses next _ joining.foundNext, ← planned.count]
    exact joining.alone
  rw [Graph.uses, joining.moved.count_eq, List.count_cons_self] at used
  constructor
  · rintro rfl
    rw [if_pos rfl] at used
    omega
  · exact List.count_eq_zero.mp (by omega)

theorem closed (joining : Joining graph references tests joined id node decisions next nextNode)
    (planned : Planned graph groups references tests) (facts : Joined graph references tests joined) :
    (join tests joined id node next nextNode).Closed := by
  intro parent child edge
  have isChild := Graph.mem_uses_iff.mpr ⟨parent, edge⟩
  have notNext : next ≠ child := by
    rintro rfl
    exact (joining.unused planned facts).2 isChild
  obtain ⟨above, edgeBefore⟩ :=
    Graph.mem_uses_iff.mp (joining.moved.mem_iff.mpr (List.mem_cons_of_mem _ isChild))
  rw [get?_join, if_neg notNext]
  split
  · exact ⟨_, rfl⟩
  · exact facts.closed above child edgeBefore

/-- The nodes that are left are used as often as before. -/
theorem uses (joining : Joining graph references tests joined id node decisions next nextNode)
    (facts : Joined graph references tests joined) {key : NodeId} {keyNode : Node}
    (foundKey : (join tests joined id node next nextNode).get? key = some keyNode) :
    (join tests joined id node next nextNode).uses key = graph.uses key := by
  have notNext : key ≠ next := by
    rintro rfl
    rw [get?_join, if_neg joining.different.symm, if_pos rfl] at foundKey
    cases foundKey
  have storedBefore : ∃ before, joined.get? key = some before := by
    rw [get?_join, if_neg notNext.symm] at foundKey
    split at foundKey
    · rename_i same
      exact ⟨node, same ▸ joining.found⟩
    · exact ⟨keyNode, foundKey⟩
  obtain ⟨before, foundBefore⟩ := storedBefore
  rw [← facts.uses key before foundBefore, Graph.uses, Graph.uses, joining.moved.count_eq,
    List.count_cons_of_ne notNext.symm]

/-- The edges after the joining lead downwards in the graph. -/
theorem edge (joining : Joining graph references tests joined id node decisions next nextNode)
    (facts : Joined graph references tests joined) {parent child : NodeId}
    (isEdge : (join tests joined id node next nextNode).Child parent child) :
    TransGen graph.Child parent child := by
  obtain ⟨conditions, _, isFront, _⟩ := joining.chain
  by_cases isId : parent = id
  · subst isId
    rw [Graph.Child, Graph.children, get?_join, if_pos rfl, isFront] at isEdge
    rcases List.mem_append.mp isEdge with inFront | inWays
    · exact facts.edge parent child (Graph.child_of_get? joining.found (List.mem_of_mem_take
        (List.dropLast_eq_take ▸ inFront)))
    · have down := facts.edge parent next
        (Graph.child_of_get? joining.found (List.mem_of_getLast? joining.isLast))
      exact down.tail (Graph.child_of_get? joining.foundBefore inWays)
  · by_cases isNext : parent = next
    · rw [Graph.Child, Graph.children, get?_join, if_neg (Ne.symm isId), if_pos isNext.symm] at isEdge
      cases isEdge
    · rw [Graph.Child, children_join_of_ne isId isNext] at isEdge
      exact facts.edge parent child isEdge

end Joining

/-- The nodes that stand for parts of the graph, after a decision has been joined to one of them. -/
def partsWith (parts : NodeId → List NodeId) (id next : NodeId) (key : NodeId) : List NodeId :=
  if key = id then parts id ++ [next] else parts key

theorem Joining.stands {parts : NodeId → List NodeId}
    (joining : Joining graph references tests joined id node (parts id) next nextNode)
    (stands : ∀ id node, joined.get? id = some node → Stands graph references tests id node (parts id))
    {key : NodeId} {keyNode : Node} (found : (join tests joined id node next nextNode).get? key = some keyNode) :
    Stands graph references tests key keyNode (partsWith parts id next key) := by
  obtain ⟨conditions, chain, isFront, isOpen⟩ := joining.chain
  obtain ⟨nickname, one, two, rfl⟩ := joining.decision
  rw [get?_join] at found
  unfold partsWith
  split at found
  · rename_i same
    subst same
    cases found
    rw [if_pos rfl, isFront]
    exact .chain (chain.snoc isOpen joining.isLast joining.foundBefore joining.alone)
  · rename_i notId
    rw [if_neg (Ne.symm notId)]
    split at found
    · cases found
    · exact stands key keyNode found

/-- After the joining the nodes stand for the same nodes of the graph, all together. -/
theorem Joining.perm {parts : NodeId → List NodeId}
    (joining : Joining graph references tests joined id node (parts id) next nextNode)
    (isSingle : parts next = [next]) :
    ((join tests joined id node next nextNode).ids.flatMap (partsWith parts id next)).Perm
      (joined.ids.flatMap parts) := by
  obtain ⟨before, after⟩ := ids_join tests joining.different joining.found joining.foundNext
  have others := flatMap_erase_congr (Graph.nodup_ids (Outline.join tests joined id node next nextNode))
    fun key _ (notId : key ≠ id) => show partsWith parts id next key = parts key from if_neg notId
  refine (after.flatMap_right _).trans (List.Perm.trans ?_ (before.flatMap_right _).symm)
  rw [List.flatMap_cons, List.flatMap_cons, List.flatMap_cons, others, isSingle, partsWith, if_pos rfl]
  generalize List.flatMap parts _ = rest
  grind

theorem Divided.join {parts : NodeId → List NodeId} (divided : Divided graph references tests joined parts)
    (readable : Readable graph groups references tests)
    (found : joinable? references joined id = some (node, next, nextNode)) :
    Divided graph references tests (join tests joined id node next nextNode) (partsWith parts id next) := by
  obtain ⟨joining, isSingle⟩ := divided.joining readable found
  exact ⟨fun _ _ => joining.stands divided.stands, (joining.perm isSingle).trans divided.whole⟩

theorem Divided.joinChains {parts : NodeId → List NodeId} (divided : Divided graph references tests joined parts)
    (readable : Readable graph groups references tests) (queue : List NodeId) :
    ∃ parts, Divided graph references tests (joinChains references tests queue joined) parts := by
  fun_induction Outline.joinChains references tests queue joined generalizing parts with
  | case1 joined => exact ⟨parts, divided⟩
  | case2 joined id rest node next nextNode found ih => exact ih (divided.join readable found)
  | case3 joined id rest _ ih => exact ih divided

/-- Joining a decision to a node keeps what is known of the joined graph. -/
theorem Joined.join (planned : Planned graph groups references tests)
    (facts : Joined graph references tests joined)
    (found : joinable? references joined id = some (node, next, nextNode)) :
    Joined graph references tests (join tests joined id node next nextNode) := by
  obtain ⟨parts, divided⟩ := facts.parts
  obtain ⟨joining, _⟩ := divided.joining planned.readable found
  refine ⟨?_, joining.closed planned facts, fun _ _ => joining.uses facts, fun _ _ => joining.edge facts,
    _, divided.join planned.readable found⟩
  rw [get?_join, if_neg (joining.unused planned facts).1]
  split
  · exact ⟨_, rfl⟩
  · exact facts.entry

/-- Joining all chains keeps what is known of the joined graph. -/
theorem Joined.joinChains (planned : Planned graph groups references tests) (queue : List NodeId)
    (facts : Joined graph references tests joined) :
    Joined graph references tests (joinChains references tests queue joined) := by
  fun_induction Outline.joinChains references tests queue joined with
  | case1 joined => exact facts
  | case2 joined id rest node next nextNode found ih => exact ih (facts.join planned found)
  | case3 joined id rest _ ih => exact ih facts

end Join

end MissionGraph.Outline
