import MissionGraph.Outline.Script
import MissionGraph.Proofs.Outline.Drawing

/-!
# Drafts write every node once

The outlines of a draft together write every node of the joined graph once. A node is written where it is
used, if that is its only use, or as a sub; a sub is called as often as its node is used, and no other
node is called.
-/

namespace MissionGraph

namespace Outline

open Relation
open Script (Condition Statement declaredSub?)

/-! ## What an outline is about -/

/-- The number of the node at the top of an outline. -/
def root : Outline → NodeId
  | .missing id => id
  | .reopened id => id
  | .call id => id
  | .choice id _ _ => id
  | .step id _ _ => id

theorem allCalls_eq (outlines : List Outline) : allCalls outlines = outlines.flatMap calls := by
  induction outlines with
  | nil => rfl
  | cons outline rest ih => rw [allCalls, ih, List.flatMap_cons]

theorem allWritten_eq (outlines : List Outline) : allWritten outlines = outlines.flatMap written := by
  induction outlines with
  | nil => rfl
  | cons outline rest ih => rw [allWritten, ih, List.flatMap_cons]

theorem allStatements_eq (outlines : List Outline) : allStatements outlines = outlines.flatMap statements := by
  induction outlines with
  | nil => rfl
  | cons outline rest ih => rw [allStatements, ih, List.flatMap_cons]

/-- The calls and the written nodes of an outline account for its top and for all children of the written
nodes. -/
def Balanced (graph : Graph) (outline : Outline) : Prop :=
  ∀ id, outline.calls.count id + outline.written.count id =
    (if outline.root = id then 1 else 0) + (outline.written.flatMap graph.children).count id

theorem balanced_all {graph : Graph} {outlines : List Outline} (balanced : ∀ outline ∈ outlines, outline.Balanced graph)
    (id : NodeId) :
    (outlines.flatMap calls).count id + (outlines.flatMap written).count id =
      (outlines.map root).count id + ((outlines.flatMap written).flatMap graph.children).count id := by
  induction outlines with
  | nil => rfl
  | cons outline rest ih =>
      have here := balanced outline List.mem_cons_self id
      have later := ih fun other member => balanced other (List.mem_cons_of_mem _ member)
      simp only [List.flatMap_cons, List.map_cons, List.count_append, List.flatMap_append, List.count_cons,
        beq_iff_eq]
      omega

namespace Plan

variable {plan : Plan} {graph : Graph} {id : NodeId} {node : Node}

theorem root_draw (plan : Plan) (id : NodeId) (inGroupBlock : Bool) : (plan.draw id inGroupBlock).root = id := by
  rw [draw, outline]
  split
  · rfl
  · split
    · dsimp only
      split <;> rfl
    · rfl

/-- How a child is written: it is called, or its outline stands there because it is used nowhere else. -/
inductive Places (plan : Plan) (child : NodeId) : Outline → Prop where
  | call : Places plan child (.call child)
  | inline (alone : plan.references.count child ≤ 1) (inGroupBlock : Bool) :
      Places plan child (plan.draw child inGroupBlock)

theorem places_block (plan : Plan) (child : NodeId) (inGroupBlock : Bool) :
    plan.Places child (plan.block child inGroupBlock) := by
  unfold block
  split
  · exact .call
  · exact .inline (by omega) _

theorem places_follow (plan : Plan) (parent : Node) (child : NodeId) :
    plan.Places child (plan.follow parent child) := by
  unfold follow
  split
  · rename_i continues
    exact .inline (of_decide_eq_true (Bool.and_eq_true_iff.mp continues).1) _
  · exact .call

theorem Places.root_eq {child : NodeId} {outline : Outline} (places : plan.Places child outline) :
    outline.root = child := by
  cases places with
  | call => rfl
  | inline _ _ => exact root_draw plan child _

/-- Every child of a test is placed in a block. -/
theorem places_zipWith (plan : Plan) (tests : List Condition) {children : List NodeId}
    (enough : children.length ≤ tests.length) :
    List.Forall₂ plan.Places children
      (List.zipWith (fun condition child => plan.block child condition.isGroup) tests children) := by
  induction children generalizing tests with
  | nil => simp
  | cons child others ih =>
      cases tests with
      | nil => cases enough
      | cons test rest => exact .cons (plan.places_block child _) (ih rest (Nat.le_of_succ_le_succ enough))

/-- Behind a node that is no test all children but the last one are called. -/
theorem places_behind (plan : Plan) (node : Node) :
    List.Forall₂ plan.Places node.children
      (node.children.dropLast.map .call ++ node.children.getLast?.toList.map (plan.follow node)) := by
  rcases List.eq_nil_or_concat node.children with isNil | ⟨front, last, isConcat⟩
  · rw [isNil]
    exact .nil
  · have called : List.Forall₂ plan.Places front (front.map .call) :=
      List.forall₂_map_right_iff.mpr (List.forall₂_same.mpr fun _ _ => .call)
    have placed := List.rel_append called (.cons (plan.places_follow node last) .nil)
    rw [isConcat]
    simpa using placed

/-- The outlines of the children of a node. -/
def outlinesBelow (plan : Plan) (id : NodeId) (node : Node) : List Outline :=
  if isTest node.content then
    List.zipWith (fun condition child => plan.block child condition.isGroup)
      (plan.testsAt id node.content ++ [.otherwise]) node.children
  else node.children.dropLast.map .call ++ node.children.getLast?.toList.map (plan.follow node)

namespace Describes

/-- Every child of a stored node is placed below it. -/
theorem places (describes : plan.Describes graph) (found : plan.graph.get? id = some node) :
    List.Forall₂ plan.Places node.children (plan.outlinesBelow id node) := by
  unfold outlinesBelow
  split
  · rename_i test
    obtain ⟨_, chain⟩ := describes.chain found test
    refine plan.places_zipWith _ ?_
    rw [List.length_append]
    exact chain.lengths.2.2
  · exact plan.places_behind node

/-- The outline of a stored node has the outlines of its children below the node. -/
theorem draw_eq (describes : plan.Describes graph) (found : plan.graph.get? id = some node) (inGroupBlock : Bool) :
    plan.draw id inGroupBlock =
      if isTest node.content then .choice id (plan.testsAt id node.content) (plan.outlinesBelow id node)
      else .step id (plan.ownStatements node.content inGroupBlock) (plan.outlinesBelow id node) := by
  unfold outlinesBelow
  split
  · rename_i test
    exact describes.draw_test found test inGroupBlock
  · rename_i plain
    exact draw_step describes.acyclic found (eq_false_of_ne_true plain) inGroupBlock

theorem calls_draw (describes : plan.Describes graph) (found : plan.graph.get? id = some node)
    (inGroupBlock : Bool) : (plan.draw id inGroupBlock).calls = (plan.outlinesBelow id node).flatMap calls := by
  rw [describes.draw_eq found]
  split <;> rw [calls, allCalls_eq]

theorem written_draw (describes : plan.Describes graph) (found : plan.graph.get? id = some node)
    (inGroupBlock : Bool) :
    (plan.draw id inGroupBlock).written = id :: (plan.outlinesBelow id node).flatMap written := by
  rw [describes.draw_eq found]
  split <;> rw [written, allWritten_eq]

end Describes

theorem map_root_of_places {children : List NodeId} {outlines : List Outline}
    (placed : List.Forall₂ plan.Places children outlines) : outlines.map root = children := by
  induction placed with
  | nil => rfl
  | cons here _ ih => rw [List.map_cons, here.root_eq, ih]

theorem exists_of_places {children : List NodeId} {outlines : List Outline}
    (placed : List.Forall₂ plan.Places children outlines) {outline : Outline} (member : outline ∈ outlines) :
    ∃ child ∈ children, plan.Places child outline := by
  induction placed with
  | nil => cases member
  | cons here _ ih =>
      rcases List.mem_cons.mp member with rfl | later
      · exact ⟨_, List.mem_cons_self, here⟩
      · obtain ⟨child, isChild, isPlaced⟩ := ih later
        exact ⟨child, List.mem_cons_of_mem _ isChild, isPlaced⟩

theorem balanced_call (graph : Graph) (id : NodeId) : (Outline.call id).Balanced graph := by
  intro key
  rw [calls, written, root, List.flatMap_nil, List.count_nil, List.count_singleton]
  simp only [beq_iff_eq]

/-- The outline of a stored node is balanced. -/
theorem Describes.balanced_draw (describes : plan.Describes graph) (stored : ∃ node, plan.graph.get? id = some node)
    (inGroupBlock : Bool) : (plan.draw id inGroupBlock).Balanced plan.graph := by
  induction id using describes.acyclic.induction generalizing inGroupBlock with
  | step id ih =>
      obtain ⟨node, found⟩ := stored
      have placed := describes.places found
      have balanced : ∀ outline ∈ plan.outlinesBelow id node, outline.Balanced plan.graph := by
        intro outline member
        obtain ⟨child, isChild, places⟩ := exists_of_places placed member
        have edge := Graph.child_of_get? found isChild
        cases places with
        | call => exact balanced_call plan.graph child
        | inline _ flag => exact ih child edge (describes.joined.closed id child edge) flag
      intro key
      have total := balanced_all balanced key
      rw [map_root_of_places placed] at total
      rw [describes.calls_draw found, describes.written_draw found, root_draw, List.flatMap_cons, List.count_cons,
        List.count_append,
        Graph.children_of_get? found]
      simp only [beq_iff_eq]
      omega

/-- A node that is used more than once is only written at the top of an outline. -/
theorem Describes.count_written (describes : plan.Describes graph)
    (stored : ∃ node, plan.graph.get? id = some node) (inGroupBlock : Bool) {key : NodeId}
    (shared : 1 < plan.references.count key) :
    (plan.draw id inGroupBlock).written.count key = if id = key then 1 else 0 := by
  induction id using describes.acyclic.induction generalizing inGroupBlock with
  | step id ih =>
      obtain ⟨node, found⟩ := stored
      have notBelow : key ∉ (plan.outlinesBelow id node).flatMap written := by
        intro member
        obtain ⟨outline, listed, isWritten⟩ := List.mem_flatMap.mp member
        obtain ⟨child, isChild, places⟩ := exists_of_places (describes.places found) listed
        have edge := Graph.child_of_get? found isChild
        cases places with
        | call => cases isWritten
        | inline alone flag =>
            have counted := ih child edge (describes.joined.closed id child edge) flag
            have other : child ≠ key := by
              rintro rfl
              omega
            rw [if_neg other] at counted
            exact List.count_eq_zero.mp counted isWritten
      rw [describes.written_draw found, List.count_cons, List.count_eq_zero_of_not_mem notBelow]
      simp

/-- What an outline calls is below its node, and what it writes is stored. -/
theorem Describes.mem_draw (describes : plan.Describes graph) (id : NodeId) (inGroupBlock : Bool) :
    (∀ key ∈ (plan.draw id inGroupBlock).calls, TransGen plan.graph.Child id key) ∧
      ∀ key ∈ (plan.draw id inGroupBlock).written, ∃ node, plan.graph.get? key = some node := by
  induction id using describes.acyclic.induction generalizing inGroupBlock with
  | step id ih =>
      cases found : plan.graph.get? id with
      | none =>
          rw [draw, outline, found]
          exact ⟨fun _ member => absurd member List.not_mem_nil, fun _ member => absurd member List.not_mem_nil⟩
      | some node =>
          have placed := describes.places found
          rw [describes.calls_draw found, describes.written_draw found]
          constructor
          · intro key member
            obtain ⟨outline, listed, isCalled⟩ := List.mem_flatMap.mp member
            obtain ⟨child, isChild, places⟩ := exists_of_places placed listed
            have edge := Graph.child_of_get? found isChild
            cases places with
            | call =>
                rw [List.mem_singleton.mp isCalled]
                exact .single edge
            | inline _ flag => exact .head edge ((ih child edge flag).1 key isCalled)
          · intro key member
            rcases List.mem_cons.mp member with rfl | below
            · exact ⟨node, found⟩
            · obtain ⟨outline, listed, isWritten⟩ := List.mem_flatMap.mp below
              obtain ⟨child, isChild, places⟩ := exists_of_places placed listed
              have edge := Graph.child_of_get? found isChild
              cases places with
              | call => cases isWritten
              | inline _ flag => exact (ih child edge flag).2 key isWritten

/-! ## The subs of a draft -/

/-- What is known of the subs that are written for the called nodes that are left. -/
structure SubsOf (plan : Plan) (left called : List NodeId) (subs : List (NodeId × Outline)) : Prop where
  outline : ∀ id outline, (id, outline) ∈ subs → outline = plan.draw id false
  nodup : (subs.map Prod.fst).Nodup
  among : ∀ id ∈ subs.map Prod.fst, id ∈ left
  used : ∀ id ∈ subs.map Prod.fst, id ∈ called ++ subs.flatMap (calls ·.2)
  complete : ∀ id ∈ left, id ∈ called ++ subs.flatMap (calls ·.2) → id ∈ subs.map Prod.fst

theorem subsOf_subs (plan : Plan) {left called : List NodeId} (nodup : left.Nodup) :
    plan.SubsOf left called (plan.subs left called) := by
  fun_induction subs plan left called with
  | case1 left called none_left =>
      refine ⟨nofun, .nil, nofun, nofun, fun id isLeft isCalled => ?_⟩
      rw [List.flatMap_nil, List.append_nil] at isCalled
      exact absurd (decide_eq_true isCalled) (List.find?_eq_none.mp none_left id isLeft)
  | case2 left called id found outline ih =>
      have isLeft := List.mem_of_find?_eq_some found
      have passed := List.find?_some found
      have isCalled : id ∈ called := of_decide_eq_true passed
      have rest := ih (nodup.erase id)
      refine ⟨?_, ?_, ?_, ?_, ?_⟩
      · intro key other member
        rcases List.mem_cons.mp member with same | later
        · cases same
          rfl
        · exact rest.outline key other later
      · rw [List.map_cons, List.nodup_cons]
        refine ⟨fun member => ?_, rest.nodup⟩
        exact (nodup.mem_erase_iff.mp (rest.among id member)).1 rfl
      · intro key member
        rcases List.mem_cons.mp member with rfl | later
        · exact isLeft
        · exact List.mem_of_mem_erase (rest.among key later)
      · intro key member
        rcases List.mem_cons.mp member with rfl | later
        · exact List.mem_append_left _ isCalled
        · have isCalled := rest.used key later
          simp only [List.mem_append, List.flatMap_cons] at isCalled ⊢
          tauto
      · intro key keyLeft keyCalled
        rw [List.map_cons, List.mem_cons]
        refine or_iff_not_imp_left.mpr fun other => ?_
        refine rest.complete key ((List.mem_erase_of_ne other).mpr keyLeft) ?_
        simp only [List.mem_append, List.flatMap_cons] at keyCalled ⊢
        tauto

end Plan

namespace Draft

/-- The numbers of the nodes that a draft writes. -/
def written (draft : Draft) : List NodeId :=
  draft.main.written ++ draft.subs.flatMap (Outline.written ·.2)

/-- The numbers of the nodes that a draft calls. -/
def calls (draft : Draft) : List NodeId :=
  draft.main.calls ++ draft.subs.flatMap (Outline.calls ·.2)

/-- The numbers of the nodes at the top of the outlines of a draft. -/
def roots (draft : Draft) : List NodeId :=
  Graph.entry :: draft.subs.map Prod.fst

variable {plan : Plan} {graph : Graph} {id : NodeId}

theorem subsOf (plan : Plan) :
    plan.SubsOf ((plan.graph.mentioned Graph.entry).mergeSort) (plan.outlineAt Graph.entry).calls (ofPlan plan).subs :=
  plan.subsOf_subs ((List.mergeSort_perm _ _).nodup_iff.mpr (Graph.nodup_mentioned _ _))

theorem flatMap_subs {α : Type} (plan : Plan) (read : Outline → List α) :
    (ofPlan plan).subs.flatMap (read ·.2) =
      ((ofPlan plan).subs.map Prod.fst).flatMap fun id => read (plan.draw id false) := by
  rw [List.flatMap_map]
  refine List.flatMap_congr fun ⟨id, outline⟩ member => ?_
  rw [(subsOf plan).outline id outline member]

theorem written_eq (plan : Plan) :
    (ofPlan plan).written = (ofPlan plan).roots.flatMap fun id => (plan.draw id false).written := by
  rw [written, flatMap_subs plan Outline.written, roots, List.flatMap_cons]
  rfl

theorem calls_eq (plan : Plan) :
    (ofPlan plan).calls = (ofPlan plan).roots.flatMap fun id => (plan.draw id false).calls := by
  rw [calls, flatMap_subs plan Outline.calls, roots, List.flatMap_cons]
  rfl

theorem exists_parent_of_mem_calls (describes : plan.Describes graph) (member : id ∈ (ofPlan plan).calls) :
    ∃ parent, plan.graph.Child parent id := by
  rw [calls_eq] at member
  obtain ⟨root, _, isCalled⟩ := List.mem_flatMap.mp member
  obtain ⟨parent, _, edge⟩ := TransGen.tail'_iff.mp ((describes.mem_draw root false).1 id isCalled)
  exact ⟨parent, edge⟩

/-- The subs of a draft are the nodes that it calls. -/
theorem mem_subs_iff (describes : plan.Describes graph) :
    id ∈ (ofPlan plan).subs.map Prod.fst ↔ id ∈ (ofPlan plan).calls := by
  constructor
  · exact (subsOf plan).used id
  · intro isCalled
    obtain ⟨parent, edge⟩ := exists_parent_of_mem_calls describes isCalled
    exact (subsOf plan).complete id (List.mem_mergeSort.mpr (Graph.mem_mentioned_of_child edge)) isCalled

theorem stored_of_mem_roots (describes : plan.Describes graph) (member : id ∈ (ofPlan plan).roots) :
    ∃ node, plan.graph.get? id = some node := by
  rcases List.mem_cons.mp member with rfl | isSub
  · exact describes.joined.entry
  · obtain ⟨parent, edge⟩ := exists_parent_of_mem_calls describes ((mem_subs_iff describes).mp isSub)
    exact describes.joined.closed parent id edge

/-- The calls and the written nodes of a draft account for its outlines and for all children of the written
nodes. -/
theorem balanced (describes : plan.Describes graph) (id : NodeId) :
    (ofPlan plan).calls.count id + (ofPlan plan).written.count id =
      (ofPlan plan).roots.count id + ((ofPlan plan).written.flatMap plan.graph.children).count id := by
  have balancedRoots : ∀ outline ∈ (ofPlan plan).roots.map fun id => plan.draw id false,
      outline.Balanced plan.graph := by
    intro outline member
    obtain ⟨root, isRoot, rfl⟩ := List.mem_map.mp member
    exact describes.balanced_draw (stored_of_mem_roots describes isRoot) false
  have total := balanced_all balancedRoots id
  rw [List.flatMap_map, List.flatMap_map, List.map_map] at total
  rw [calls_eq, written_eq, total]
  congr 2
  refine (List.map_congr_left fun root _ => plan.root_draw root false).trans (List.map_id _)

/-- A node that is used more than once is written as often as an outline starts with it. -/
theorem count_written_of_shared (describes : plan.Describes graph) (shared : 1 < plan.references.count id) :
    (ofPlan plan).written.count id = (ofPlan plan).roots.count id := by
  rw [written_eq]
  have stored (root : NodeId) (member : root ∈ (ofPlan plan).roots) : ∃ node, plan.graph.get? root = some node :=
    stored_of_mem_roots describes member
  generalize (ofPlan plan).roots = roots at stored
  induction roots with
  | nil => rfl
  | cons root others ih =>
      rw [List.flatMap_cons, List.count_append, ih fun other member => stored other (List.mem_cons_of_mem _ member),
        describes.count_written (stored root List.mem_cons_self) false shared, List.count_cons, Nat.add_comm]
      simp only [beq_iff_eq]

theorem count_roots (describes : plan.Describes graph) (other : id ≠ Graph.entry) :
    (ofPlan plan).roots.count id = if id ∈ (ofPlan plan).calls then 1 else 0 := by
  rw [roots, List.count_cons_of_ne other.symm]
  split
  · rename_i isCalled
    rw [(subsOf plan).nodup.count, if_pos ((mem_subs_iff describes).mpr isCalled)]
  · rename_i notCalled
    exact List.count_eq_zero_of_not_mem fun isSub => notCalled ((mem_subs_iff describes).mp isSub)

theorem mem_written_of_mem_roots (describes : plan.Describes graph) (member : id ∈ (ofPlan plan).roots) :
    id ∈ (ofPlan plan).written := by
  obtain ⟨node, found⟩ := stored_of_mem_roots describes member
  rw [written_eq]
  refine List.mem_flatMap.mpr ⟨id, member, ?_⟩
  rw [describes.written_draw found]
  exact List.mem_cons_self

/-- If the parents of a node are listed as often as they are stored, the children of the listed nodes hold it
as often as those of the stored nodes. -/
theorem count_flatMap_children {written : List NodeId}
    (once : ∀ parent, plan.graph.Child parent id → written.count parent = plan.graph.ids.count parent) :
    (written.flatMap plan.graph.children).count id = (plan.graph.ids.flatMap plan.graph.children).count id := by
  have only (ids : List NodeId) : (ids.flatMap plan.graph.children).count id =
      ((ids.filter fun parent => decide (id ∈ plan.graph.children parent)).flatMap plan.graph.children).count id := by
    induction ids with
    | nil => rfl
    | cons parent others ih =>
        rw [List.flatMap_cons, List.count_append, ih, List.filter_cons]
        split
        · rw [List.flatMap_cons, List.count_append]
        · rename_i notChild
          rw [List.count_eq_zero_of_not_mem (by simpa using notChild), Nat.zero_add]
  have same : (written.filter fun parent => decide (id ∈ plan.graph.children parent)).Perm
      (plan.graph.ids.filter fun parent => decide (id ∈ plan.graph.children parent)) := by
    refine List.perm_iff_count.mpr fun parent => ?_
    by_cases isParent : id ∈ plan.graph.children parent
    · rw [List.count_filter (by simpa using isParent), List.count_filter (by simpa using isParent),
        once parent isParent]
    · rw [List.count_eq_zero_of_not_mem (by simp [isParent]), List.count_eq_zero_of_not_mem (by simp [isParent])]
  rw [only written, only plan.graph.ids, (same.flatMap_right _).count_eq]

/-- The entry starts the main outline and stands nowhere else. -/
theorem count_written_entry (describes : plan.Describes graph) : (ofPlan plan).written.count Graph.entry = 1 := by
  have noParent (parent : NodeId) : ¬ plan.graph.Child parent Graph.entry := describes.not_child_entry
  have notUsed : Graph.entry ∉ plan.graph.ids.flatMap plan.graph.children := by
    rw [Graph.mem_uses_iff]
    rintro ⟨parent, edge⟩
    exact noParent parent edge
  have notCalled : Graph.entry ∉ (ofPlan plan).calls := by
    intro isCalled
    obtain ⟨parent, edge⟩ := exists_parent_of_mem_calls describes isCalled
    exact noParent parent edge
  have notSub : Graph.entry ∉ (ofPlan plan).subs.map Prod.fst :=
    fun isSub => notCalled ((mem_subs_iff describes).mp isSub)
  have total := balanced describes Graph.entry
  rw [count_flatMap_children fun parent edge => absurd edge (noParent parent), List.count_eq_zero_of_not_mem notUsed,
    List.count_eq_zero_of_not_mem notCalled, roots, List.count_cons_self, List.count_eq_zero_of_not_mem notSub] at total
  omega

/-- A draft writes every stored node once. -/
theorem count_written (describes : plan.Describes graph) (stored : ∃ node, plan.graph.get? id = some node) :
    (ofPlan plan).written.count id = 1 := by
  -- from the parents of a node to the node itself
  induction id using describes.acyclic.induction_up describes.joined.closed with
  | step id ih =>
      obtain ⟨node, found⟩ := stored
      have isCounted (parent : NodeId) (edge : plan.graph.Child parent id) :
          (ofPlan plan).written.count parent = plan.graph.ids.count parent := by
        obtain ⟨parentNode, foundParent, _⟩ := Graph.child_iff.mp edge
        have listed := Graph.mem_ids_iff.mpr ⟨parentNode, foundParent⟩
        rw [ih parent edge ⟨parentNode, foundParent⟩, (Graph.nodup_ids _).count, if_pos listed]
      have total := balanced describes id
      rw [count_flatMap_children isCounted] at total
      obtain ⟨isUsed, used⟩ := describes.count_eq found
      unfold Graph.uses at isUsed used
      have written (member : id ∈ (ofPlan plan).roots) : 0 < (ofPlan plan).written.count id :=
        List.count_pos_iff.mpr (mem_written_of_mem_roots describes member)
      by_cases isEntry : id = Graph.entry
      · rw [isEntry]
        exact count_written_entry describes
      · rw [if_neg isEntry] at isUsed used
        have isRoot := count_roots describes isEntry
        by_cases shared : 1 < plan.references.count id
        · have top := count_written_of_shared describes shared
          by_cases isCalled : id ∈ (ofPlan plan).calls
          · rw [if_pos isCalled] at isRoot
            omega
          · rw [if_neg isCalled] at isRoot
            rw [List.count_eq_zero_of_not_mem isCalled] at total
            omega
        · by_cases isCalled : id ∈ (ofPlan plan).calls
          · rw [if_pos isCalled] at isRoot
            have once := List.count_pos_iff.mpr isCalled
            have some_written := written (List.count_pos_iff.mp (by omega))
            omega
          · rw [if_neg isCalled] at isRoot
            rw [List.count_eq_zero_of_not_mem isCalled] at total
            omega

/-- What a draft writes are the stored nodes, each of them once. -/
theorem written_perm (describes : plan.Describes graph) : (ofPlan plan).written.Perm plan.graph.ids := by
  refine List.perm_iff_count.mpr fun id => ?_
  rw [(Graph.nodup_ids _).count]
  by_cases stored : id ∈ plan.graph.ids
  · rw [if_pos stored, count_written describes (Graph.mem_ids_iff.mp stored)]
  · rw [if_neg stored]
    refine List.count_eq_zero_of_not_mem fun member => stored ?_
    rw [written_eq] at member
    obtain ⟨root, _, isWritten⟩ := List.mem_flatMap.mp member
    exact Graph.mem_ids_iff.mpr ((describes.mem_draw root false).2 id isWritten)

/-- A node that is called is called from everywhere it is used; all nodes but the entry that are not called
are used once. -/
theorem count_calls (describes : plan.Describes graph) {node : Node} (found : plan.graph.get? id = some node)
    (other : id ≠ Graph.entry) :
    (id ∈ (ofPlan plan).calls →
      (ofPlan plan).calls.count id = (plan.graph.ids.flatMap plan.graph.children).count id) ∧
      (id ∉ (ofPlan plan).calls → (plan.graph.ids.flatMap plan.graph.children).count id = 1) := by
  have total := balanced describes id
  have isRoot := count_roots describes other
  rw [((written_perm describes).flatMap_right _).count_eq, count_written describes ⟨node, found⟩] at total
  constructor
  · intro isCalled
    rw [if_pos isCalled] at isRoot
    omega
  · intro notCalled
    rw [if_neg notCalled] at isRoot
    rw [List.count_eq_zero_of_not_mem notCalled] at total
    omega

end Draft

end Outline

end MissionGraph
