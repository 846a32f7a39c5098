import MissionGraph.Proofs.Outline.Chains

/-!
# The outline of a node

A node opens those of its children that are written out with it; the others are called. Where nodes do not open
each other in a circle, the outline of a node is given by its children alone: each of them is called or has its own
outline there. In a graph without cycles that is so.
-/

namespace MissionGraph.Outline

open Relation
open Script (Block Condition Statement)

/-- The plan describes a simple graph: it knows the uses, the tests and the groups of the graph, and its own
graph comes from joining chains. -/
structure Plan.Describes (plan : Plan) (graph : Graph) : Prop where
  planned : Planned graph plan.groups plan.references plan.tests
  joined : Joined graph plan.references plan.tests plan.graph
  groups : plan.groups = Outline.groups graph

/-- A plan that has been made describes the simplified graph. -/
theorem describes_of_ofGraph {graph : Graph} {plan : Plan} (proper : graph.Proper)
    (plain : ∀ id conditions children, graph.get? id ≠ some ⟨.choice conditions, children⟩)
    (success : Plan.ofGraph graph = .ok plan) : plan.Describes graph.simplify := by
  obtain ⟨tests, told, made⟩ := Success.bind_eq_ok_iff.mp success
  cases made
  have simple := Graph.simple_simplify proper
  have sound (id : NodeId) (node : Node) (found : graph.simplify.get? id = some node) : node.Sound := by
    obtain ⟨content, children⟩ := node
    cases content with
    | data data => trivial
    | documentation text => trivial
    | decision nickname => exact length_children told found
    | choice conditions =>
        obtain ⟨key, ⟨_, olds⟩, foundBefore, rfl⟩ := Graph.exists_content_of_simplify proper found
        exact absurd foundBefore (plain key conditions olds)
  have planned : Planned graph.simplify (groups graph.simplify) (graph.simplify.references Graph.entry) tests :=
    ⟨simple, sound, count_references simple.reached, told⟩
  exact ⟨planned, (Joined.refl simple).joinChains planned _, rfl⟩

namespace Plan

variable {plan : Plan} {graph : Graph} {id : NodeId} {node : Node}

/-- The outline of a node, given the outlines of its children: a child that is used more than once is called
from a block, and behind a node that is no test all children but the last one are called. -/
def assemble (plan : Plan) (draw : NodeId → Bool → Outline) (id : NodeId) (node : Node) (inGroupBlock : Bool) :
    Outline :=
  let block (child : NodeId) (inGroupBlock : Bool) : Outline :=
    if 1 < plan.references.count child then .call child else draw child inGroupBlock
  if isTest node.content then
    let tests := plan.testsAt id node.content
    let tested := List.zipWith (fun test child => block child test.isGroup) tests node.children
    let other := if tests.length < node.children.length then node.children.getLast? else none
    .choice id (tests.take node.children.length) (tested ++ other.toList.map (block · false))
  else
    .step id (plan.ownStatements node.content inGroupBlock)
      (node.children.dropLast.map .call ++ node.children.getLast?.toList.map fun last =>
        if plan.continues node last then draw last false else .call last)

theorem outline_eq_assemble {unopened : List NodeId} (found : plan.graph.get? id = some node)
    (member : id ∈ unopened) (inGroupBlock : Bool) :
    plan.outline unopened id inGroupBlock =
      plan.assemble (plan.outline (unopened.erase id)) id node inGroupBlock := by
  rw [outline, found]
  dsimp only
  rw [dif_pos member]
  rfl

theorem zipWith_congr {α β γ : Type} {tests : List α} {values : List β} {first second : α → β → γ}
    (same : ∀ test, ∀ value ∈ values.take tests.length, first test value = second test value) :
    List.zipWith first tests values = List.zipWith second tests values := by
  induction values generalizing tests with
  | nil => simp
  | cons value others ih =>
      cases tests with
      | nil => rfl
      | cons test rest =>
          rw [List.zipWith_cons_cons, List.zipWith_cons_cons, same test value List.mem_cons_self,
            ih fun test value member => same test value (List.mem_cons_of_mem _ member)]

/-- Values with a test each, and perhaps one more value for all other cases. -/
theorem zipWith_append_singleton {α β γ : Type} {tests : List α} {values : List β} (pair : α → β → γ) (other : α)
    (notMore : tests.length ≤ values.length) (notLess : values.length ≤ tests.length + 1) :
    List.zipWith pair tests values ++
        (if tests.length < values.length then values.getLast? else none).toList.map (pair other) =
      List.zipWith pair (tests ++ [other]) values := by
  induction tests generalizing values with
  | nil =>
      match values, notLess with
      | [], _ => rfl
      | [value], _ => rfl
  | cons test rest ih =>
      cases values with
      | nil => cases notMore
      | cons value others =>
          simp only [List.length_cons, Nat.add_le_add_iff_right, Nat.add_lt_add_iff_right] at *
          rw [List.cons_append, List.zipWith_cons_cons, List.zipWith_cons_cons, ← ih notMore notLess,
            List.cons_append]
          congr 2
          split
          · rename_i more
            cases others with
            | nil => cases more
            | cons next _ => rw [List.getLast?_cons_cons]
          · rfl

/-- The children of a test that have a block: those with a test of their own, and the last one if it is for all
other cases. -/
def blocksBelow (plan : Plan) (id : NodeId) (node : Node) : List NodeId :=
  node.children.take (plan.testsAt id node.content).length ++
    (if (plan.testsAt id node.content).length < node.children.length then node.children.getLast? else none).toList

/-- The children that are written out with a node: those in blocks that are not called, and behind a node that is no
test the last one if it can stand there. -/
def openedBelow (plan : Plan) (id : NodeId) (node : Node) : List NodeId :=
  if isTest node.content then (plan.blocksBelow id node).filter fun child => plan.references.count child ≤ 1
  else node.children.getLast?.toList.filter (plan.continues node)

theorem mem_children_of_mem_blocksBelow {child : NodeId} (listed : child ∈ plan.blocksBelow id node) :
    child ∈ node.children := by
  rcases List.mem_append.mp listed with tested | other
  · exact List.mem_of_mem_take tested
  · split at other
    · exact List.mem_of_getLast? (Option.mem_toList.mp other)
    · cases other

/-- The graph with only the children that are written out with their parents. -/
def openings (plan : Plan) : Graph :=
  { plan.graph with
    nodes := plan.graph.nodes.map fun id node => { node with children := plan.openedBelow id node } }

theorem get?_openings (plan : Plan) (id : NodeId) :
    plan.openings.get? id =
      (plan.graph.get? id).map fun node => { node with children := plan.openedBelow id node } := by
  simp [Graph.get?, openings]

theorem child_openings_iff {parent child : NodeId} :
    plan.openings.Child parent child ↔
      ∃ node, plan.graph.get? parent = some node ∧ child ∈ plan.openedBelow parent node := by
  rw [Graph.child_iff, get?_openings]
  constructor
  · rintro ⟨_, found, member⟩
    obtain ⟨node, stored, rfl⟩ := Option.map_eq_some_iff.mp found
    exact ⟨node, stored, member⟩
  · rintro ⟨node, stored, member⟩
    exact ⟨_, Option.map_eq_some_iff.mpr ⟨node, stored, rfl⟩, member⟩

/-- A child that is written out with its parent is used only there. -/
theorem of_mem_openedBelow {child : NodeId} (opened : child ∈ plan.openedBelow id node) :
    child ∈ node.children ∧ plan.references.count child ≤ 1 := by
  unfold openedBelow at opened
  split at opened
  · obtain ⟨listed, alone⟩ := List.mem_filter.mp opened
    exact ⟨mem_children_of_mem_blocksBelow listed, of_decide_eq_true alone⟩
  · obtain ⟨isLast, continues⟩ := List.mem_filter.mp opened
    exact ⟨List.mem_of_getLast? (Option.mem_toList.mp isLast),
      of_decide_eq_true (Bool.and_eq_true_iff.mp continues).1⟩

theorem acyclic_openings (acyclic : plan.graph.Acyclic) : plan.openings.Acyclic := by
  have edge (parent child : NodeId) (opens : plan.openings.Child parent child) : plan.graph.Child parent child := by
    obtain ⟨node, found, opened⟩ := child_openings_iff.mp opens
    exact Graph.child_of_get? found (of_mem_openedBelow opened).1
  intro id circle
  exact acyclic id (TransGen.mono edge _ _ circle)

/-- The outline of a node depends on the outlines of the children that it opens, and on no others. -/
theorem assemble_congr {first second : NodeId → Bool → Outline} (id : NodeId) (inGroupBlock : Bool)
    (same : ∀ child ∈ plan.openedBelow id node, ∀ flag, first child flag = second child flag) :
    plan.assemble first id node inGroupBlock = plan.assemble second id node inGroupBlock := by
  unfold assemble
  dsimp only
  unfold openedBelow at same
  by_cases test : isTest node.content = true
  · rw [if_pos test] at same ⊢
    rw [if_pos test]
    have sameBlock {child : NodeId} (flag : Bool) (listed : child ∈ plan.blocksBelow id node) :
        (if 1 < plan.references.count child then Outline.call child else first child flag) =
          if 1 < plan.references.count child then .call child else second child flag := by
      split
      · rfl
      · rename_i alone
        exact same child (List.mem_filter.mpr ⟨listed, decide_eq_true (Nat.le_of_not_lt alone)⟩) flag
    congr 2
    · exact zipWith_congr fun test child member => sameBlock _ (List.mem_append_left _ member)
    · exact List.map_congr_left fun last isLast => sameBlock _ (List.mem_append_right _ isLast)
  · rw [if_neg test] at same ⊢
    rw [if_neg test]
    congr 2
    refine List.map_congr_left fun last isLast => ?_
    split
    · rename_i continues
      exact same last (List.mem_filter.mpr ⟨isLast, continues⟩) false
    · rfl

/-- The outline of a node does not depend on the unopened nodes, as long as all nodes that are written out with it
are unopened. -/
theorem outline_congr (acyclic : plan.openings.Acyclic) (id : NodeId) (first second : List NodeId)
    (inGroupBlock : Bool) (allFirst : ∀ key ∈ plan.graph.ids, plan.openings.Reaches id key → key ∈ first)
    (allSecond : ∀ key ∈ plan.graph.ids, plan.openings.Reaches id key → key ∈ second) :
    plan.outline first id inGroupBlock = plan.outline second id inGroupBlock := by
  induction id using acyclic.induction generalizing first second inGroupBlock with
  | step id ih =>
      cases found : plan.graph.get? id with
      | none => rw [outline, outline, found]
      | some node =>
          have stored : id ∈ plan.graph.ids := Graph.mem_ids_iff.mpr ⟨node, found⟩
          rw [outline_eq_assemble found (allFirst id stored .refl),
            outline_eq_assemble found (allSecond id stored .refl)]
          refine assemble_congr id inGroupBlock fun child opened flag => ?_
          have edge : plan.openings.Child id child := child_openings_iff.mpr ⟨node, found, opened⟩
          -- the node itself is not written out with its child
          have below {unopened : List NodeId}
              (all : ∀ key ∈ plan.graph.ids, plan.openings.Reaches id key → key ∈ unopened) :
              ∀ key ∈ plan.graph.ids, plan.openings.Reaches child key → key ∈ unopened.erase id := by
            intro key isStored path
            refine (List.mem_erase_of_ne ?_).mpr (all key isStored (.head edge path))
            rintro rfl
            exact acyclic key (.head' edge path)
          exact ih child edge _ _ flag (below allFirst) (below allSecond)

/-- The outline of a node where nothing has been opened yet. -/
def draw (plan : Plan) (id : NodeId) (inGroupBlock : Bool) : Outline :=
  plan.outline plan.graph.ids id inGroupBlock

/-- How a child is written in a block of its own. -/
def block (plan : Plan) (child : NodeId) (inGroupBlock : Bool) : Outline :=
  if 1 < plan.references.count child then .call child else plan.draw child inGroupBlock

/-- How the last child of a node is written behind it. -/
def follow (plan : Plan) (parent : Node) (child : NodeId) : Outline :=
  if plan.continues parent child then plan.draw child false else .call child

theorem draw_eq_assemble (acyclic : plan.openings.Acyclic) (found : plan.graph.get? id = some node)
    (inGroupBlock : Bool) : plan.draw id inGroupBlock = plan.assemble plan.draw id node inGroupBlock := by
  have stored : id ∈ plan.graph.ids := Graph.mem_ids_iff.mpr ⟨node, found⟩
  rw [draw, outline_eq_assemble found stored]
  refine assemble_congr id inGroupBlock fun child opened flag => ?_
  have edge : plan.openings.Child id child := child_openings_iff.mpr ⟨node, found, opened⟩
  refine outline_congr acyclic child _ _ flag (fun key isStored path => ?_) fun key isStored _ => isStored
  refine (List.mem_erase_of_ne ?_).mpr isStored
  rintro rfl
  exact acyclic key (.head' edge path)

/-- The outline of a node that is no test: its own statements and what follows. -/
theorem draw_step (acyclic : plan.graph.Acyclic) (found : plan.graph.get? id = some node)
    (plain : isTest node.content = false) (inGroupBlock : Bool) :
    plan.draw id inGroupBlock = .step id (plan.ownStatements node.content inGroupBlock)
      (node.children.dropLast.map .call ++ node.children.getLast?.toList.map (plan.follow node)) := by
  rw [draw_eq_assemble (acyclic_openings acyclic) found, assemble, if_neg (by simp [plain])]
  rfl

end Plan

/-- A test stands for a chain of decisions, of which there may be one only. -/
theorem Planned.chain {plan : Plan} {graph : Graph} {id : NodeId} {node : Node} {parts : List NodeId}
    (planned : Planned graph plan.groups plan.references plan.tests)
    (stands : Stands graph plan.references plan.tests id node parts) (test : Plan.isTest node.content = true) :
    Chain graph plan.references plan.tests id (plan.testsAt id node.content) node.children parts := by
  cases stands with
  | chain chain => exact chain
  | same foundBefore =>
      have sound := planned.sound _ _ foundBefore
      obtain ⟨content, children⟩ := node
      cases content with
      | data data => cases test
      | documentation text => cases test
      | choice conditions => exact sound.elim
      | decision nickname =>
          obtain ⟨one, two, rfl⟩ := List.length_eq_two.mp (show children.length = 2 from sound)
          exact .last foundBefore

namespace Plan.Describes

variable {plan : Plan} {graph : Graph} {id : NodeId} {node : Node}

theorem acyclic (describes : plan.Describes graph) : plan.graph.Acyclic :=
  describes.joined.acyclic describes.planned.simple.proper.acyclic

/-- Nothing leads to the entry of the joined graph. -/
theorem not_child_entry (describes : plan.Describes graph) {parent : NodeId} :
    ¬ plan.graph.Child parent Graph.entry := by
  intro edge
  obtain ⟨last, _, lastEdge⟩ := TransGen.tail'_iff.mp (describes.joined.edge _ _ edge)
  exact describes.planned.simple.not_child_entry lastEdge

/-- The nodes of the joined graph are nodes of the graph, up to their content. -/
theorem stored (describes : plan.Describes graph) (found : plan.graph.get? id = some node) :
    ∃ before, graph.get? id = some before := by
  obtain ⟨parts, stands⟩ := describes.joined.stands found
  cases stands with
  | same foundBefore => exact ⟨node, foundBefore⟩
  | chain chain =>
      cases chain with
      | last foundBefore => exact ⟨_, foundBefore⟩
      | cons foundBefore _ _ => exact ⟨_, foundBefore⟩

/-- The references to a node of the joined graph are its uses there, of which there is at least one. -/
theorem count_eq (describes : plan.Describes graph) (found : plan.graph.get? id = some node) :
    plan.references.count id = plan.graph.uses id ∧ 0 < plan.graph.uses id := by
  obtain ⟨before, foundBefore⟩ := describes.stored found
  rw [describes.joined.uses id node found]
  exact ⟨describes.planned.count id, describes.planned.simple.uses_pos foundBefore⟩

/-- A node of the joined graph that is no test is a node of the graph. -/
theorem get?_of_plain (describes : plan.Describes graph) (found : plan.graph.get? id = some node)
    (plain : isTest node.content = false) : graph.get? id = some node := by
  obtain ⟨parts, stands⟩ := describes.joined.stands found
  cases stands with
  | same foundBefore => exact foundBefore
  | chain _ => cases plain

/-- A test of the joined graph stands for a chain of decisions. -/
theorem chain (describes : plan.Describes graph) (found : plan.graph.get? id = some node)
    (test : isTest node.content = true) :
    ∃ decisions, Chain graph plan.references plan.tests id (plan.testsAt id node.content) node.children
      decisions := by
  obtain ⟨parts, stands⟩ := describes.joined.stands found
  exact ⟨parts, describes.planned.chain stands test⟩

/-- The outline of a test: a block for every child, the last one perhaps for all other cases. -/
theorem draw_test (describes : plan.Describes graph) (found : plan.graph.get? id = some node)
    (test : isTest node.content = true) (inGroupBlock : Bool) :
    plan.draw id inGroupBlock = .choice id (plan.testsAt id node.content)
      (List.zipWith (fun condition child => plan.block child condition.isGroup)
        (plan.testsAt id node.content ++ [.otherwise]) node.children) := by
  obtain ⟨decisions, chain⟩ := describes.chain found test
  obtain ⟨_, notMore, notLess⟩ := chain.lengths
  rw [draw_eq_assemble (acyclic_openings describes.acyclic) found, assemble, if_pos test]
  dsimp only
  rw [List.take_of_length_le notMore, ← zipWith_append_singleton _ _ notMore notLess]
  rfl

end Plan.Describes

end MissionGraph.Outline
