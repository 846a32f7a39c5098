import MissionGraph.Outline.Script
import MissionGraph.Proofs.Graph.Halting
import MissionGraph.Proofs.Outline.Drafts
import MissionGraph.Proofs.Outline.Openings

/-!
# Decompilation ends

Every loop on the way from a graph to its script ends, whatever the graph looks like: those that simplify the graph,
joining chains and writing the subs that are called. The recursion that writes a node out comes to an end without a
record of the nodes that are open, because no node is met while it is open.
-/

namespace MissionGraph

namespace Outline

/-! ## Joining chains -/

/-- Takes the first number from the queue; if a decision can be joined to its node, it is queued again. -/
def joinStep (references : References) (tests : List (NodeId × Tests)) :
    List NodeId × Graph → Option (List NodeId × Graph)
  | ([], _) => none
  | (id :: rest, graph) =>
      match joinable? references graph id with
      | some (node, next, nextNode) => some (rest ++ [id], join tests graph id node next nextNode)
      | none => some (rest, graph)

theorem halts_joinChains (references : References) (tests : List (NodeId × Tests)) (queue : List NodeId)
    (graph : Graph) :
    Halts (joinStep references tests) (queue, graph) ([], joinChains references tests queue graph) := by
  fun_induction joinChains references tests queue graph with
  | case1 graph => exact .stop rfl
  | case2 graph id rest node next nextNode found ih =>
      refine .next ?_ ih
      rw [joinStep, found]
  | case3 graph id rest none_found ih =>
      refine .next ?_ ih
      rw [joinStep, none_found]

namespace Plan

variable {plan : Plan} {id : NodeId} {node : Node}

/-! ## Writing a node -/

/-- What is written for a number by plain recursion: nothing if there is no node, and otherwise what is made of the
texts of the children that are written out with the node. -/
inductive Writes (plan : Plan) : NodeId → Bool → Outline → Prop where
  | missing {id : NodeId} {inGroupBlock : Bool} (absent : plan.graph.get? id = none) :
      Writes plan id inGroupBlock (.missing id)
  | node {id : NodeId} {node : Node} {inGroupBlock : Bool} {draw : NodeId → Bool → Outline}
      (found : plan.graph.get? id = some node)
      (below : ∀ child ∈ plan.openedBelow id node, ∀ flag, Writes plan child flag (draw child flag)) :
      Writes plan id inGroupBlock (plan.assemble draw id node inGroupBlock)

theorem draw_eq_missing (absent : plan.graph.get? id = none) (inGroupBlock : Bool) :
    plan.draw id inGroupBlock = .missing id := by
  rw [draw, outline, absent]

/-- Plain recursion ends with the outline of the node. -/
theorem writes_draw (acyclic : plan.openings.Acyclic) (id : NodeId) (inGroupBlock : Bool) :
    plan.Writes id inGroupBlock (plan.draw id inGroupBlock) := by
  induction id using acyclic.induction generalizing inGroupBlock with
  | step id ih =>
      cases found : plan.graph.get? id with
      | none =>
          rw [draw_eq_missing found]
          exact .missing found
      | some node =>
          rw [draw_eq_assemble acyclic found]
          refine .node found fun child opened flag => ih child ?_ flag
          exact child_openings_iff.mpr ⟨node, found, opened⟩

theorem Writes.eq_draw (acyclic : plan.openings.Acyclic) {inGroupBlock : Bool} {outline : Outline}
    (writes : plan.Writes id inGroupBlock outline) : outline = plan.draw id inGroupBlock := by
  induction writes with
  | missing absent => exact (draw_eq_missing absent _).symm
  | node found below ih =>
      rw [draw_eq_assemble acyclic found]
      exact assemble_congr _ _ ih

/-! ## Writing the subs -/

theorem exists_of_mem_zipWith {α β γ : Type} {pair : α → β → γ} {tests : List α} {values : List β} {result : γ}
    (member : result ∈ List.zipWith pair tests values) :
    ∃ test, ∃ value ∈ values.take tests.length, pair test value = result := by
  induction values generalizing tests with
  | nil => simp at member
  | cons value others ih =>
      cases tests with
      | nil => cases member
      | cons test rest =>
          rcases List.mem_cons.mp member with rfl | later
          · exact ⟨test, value, List.mem_cons_self, rfl⟩
          · obtain ⟨other, found, listed, same⟩ := ih later
            exact ⟨other, found, List.mem_cons_of_mem _ listed, same⟩

/-- What is called in the outline of a node is a child of it or called in the outline of a child. -/
theorem mem_calls_assemble {draw : NodeId → Bool → Outline} {inGroupBlock : Bool} {key : NodeId}
    (member : key ∈ (plan.assemble draw id node inGroupBlock).calls) :
    key ∈ node.children ∨ ∃ child ∈ plan.openedBelow id node, ∃ flag, key ∈ (draw child flag).calls := by
  unfold assemble at member
  unfold openedBelow
  dsimp only at member
  by_cases test : isTest node.content = true
  · rw [if_pos test, calls, allCalls_eq] at member
    rw [if_pos test]
    obtain ⟨outline, listed, isCalled⟩ := List.mem_flatMap.mp member
    have placed : ∃ child ∈ plan.blocksBelow id node, ∃ flag,
        (if 1 < plan.references.count child then Outline.call child else draw child flag) = outline := by
      rcases List.mem_append.mp listed with tested | other
      · obtain ⟨condition, child, isTested, same⟩ := exists_of_mem_zipWith tested
        exact ⟨child, List.mem_append_left _ isTested, condition.isGroup, same⟩
      · obtain ⟨last, isLast, same⟩ := List.mem_map.mp other
        exact ⟨last, List.mem_append_right _ isLast, false, same⟩
    obtain ⟨child, isBlock, flag, rfl⟩ := placed
    split at isCalled
    · rw [List.mem_singleton.mp isCalled]
      exact .inl (mem_children_of_mem_blocksBelow isBlock)
    · rename_i alone
      exact .inr ⟨child, List.mem_filter.mpr ⟨isBlock, decide_eq_true (Nat.le_of_not_lt alone)⟩, flag, isCalled⟩
  · rw [if_neg test, calls, allCalls_eq] at member
    rw [if_neg test]
    obtain ⟨outline, listed, isCalled⟩ := List.mem_flatMap.mp member
    rcases List.mem_append.mp listed with before | behind
    · obtain ⟨child, isChild, rfl⟩ := List.mem_map.mp before
      rw [List.mem_singleton.mp isCalled]
      exact .inl (List.dropLast_subset _ isChild)
    · obtain ⟨last, isLast, rfl⟩ := List.mem_map.mp behind
      split at isCalled
      · rename_i continues
        exact .inr ⟨last, List.mem_filter.mpr ⟨isLast, continues⟩, false, isCalled⟩
      · rw [List.mem_singleton.mp isCalled]
        exact .inl (List.mem_of_getLast? (Option.mem_toList.mp isLast))

/-- Only children are called. -/
theorem Writes.exists_child {inGroupBlock : Bool} {outline : Outline} (writes : plan.Writes id inGroupBlock outline)
    {key : NodeId} (isCalled : key ∈ outline.calls) : ∃ parent, plan.graph.Child parent key := by
  induction writes with
  | missing absent => cases isCalled
  | node found below ih =>
      rcases mem_calls_assemble isCalled with isChild | ⟨child, opened, flag, called⟩
      · exact ⟨_, Graph.child_of_get? found isChild⟩
      · exact ih child opened flag called

/-- Writes the sub with the first number that is called and not written yet. -/
def subStep (plan : Plan) : List NodeId × List (NodeId × Outline) → Option (List NodeId × List (NodeId × Outline))
  | (called, subs) =>
      (called.filter fun id => id ∉ subs.map Prod.fst).min?.map fun id =>
        ((plan.outlineAt id).calls ++ called, subs ++ [(id, plan.outlineAt id)])

/-- The first number of an ascending list that passes a test is the least one that does. -/
theorem le_of_find?_eq_some {left : List NodeId} {test : NodeId → Bool} (sorted : left.Pairwise (· ≤ ·))
    (found : left.find? test = some id) {other : NodeId} (listed : other ∈ left) (passes : test other = true) :
    id ≤ other := by
  obtain ⟨_, before, after, rfl, refused⟩ := List.find?_eq_some_iff_append.mp found
  rcases List.mem_append.mp listed with earlier | later
  · have fails := refused other earlier
    rw [passes] at fails
    cases fails
  · rcases List.mem_cons.mp later with rfl | isAfter
    · exact Nat.le_refl _
    · exact (List.pairwise_cons.mp (List.pairwise_append.mp sorted).2.1).1 other isAfter

section

variable {occurs : NodeId → Prop} {left called : List NodeId} {done : List (NodeId × Outline)}

/-- The numbers that are called and not written yet are those on the list of what is left. -/
theorem mem_pending_iff (parted : Parted occurs left (done.map Prod.fst)) (calledOccurs : ∀ key ∈ called, occurs key) :
    id ∈ called.filter (fun key => key ∉ done.map Prod.fst) ↔ id ∈ left ∧ id ∈ called := by
  rw [List.mem_filter, decide_eq_true_iff]
  constructor
  · rintro ⟨isCalled, unwritten⟩
    exact ⟨(parted.mem_left_iff (calledOccurs id isCalled)).mpr unwritten, isCalled⟩
  · rintro ⟨isLeft, isCalled⟩
    exact ⟨isCalled, parted.apart id isLeft⟩

theorem subStep_eq_none (parted : Parted occurs left (done.map Prod.fst)) (calledOccurs : ∀ key ∈ called, occurs key)
    (none_left : left.find? (fun key => decide (key ∈ called)) = none) : plan.subStep (called, done) = none := by
  have nothing : called.filter (fun key => key ∉ done.map Prod.fst) = [] := by
    refine List.eq_nil_iff_forall_not_mem.mpr fun key pending => ?_
    obtain ⟨isLeft, isCalled⟩ := (mem_pending_iff parted calledOccurs).mp pending
    exact List.find?_eq_none.mp none_left key isLeft (decide_eq_true isCalled)
  rw [subStep, nothing]
  rfl

theorem subStep_eq_some (sorted : left.Pairwise (· ≤ ·)) (parted : Parted occurs left (done.map Prod.fst))
    (calledOccurs : ∀ key ∈ called, occurs key)
    (found : left.find? (fun key => decide (key ∈ called)) = some id) :
    plan.subStep (called, done) = some ((plan.outlineAt id).calls ++ called, done ++ [(id, plan.outlineAt id)]) := by
  have least : (called.filter fun key => key ∉ done.map Prod.fst).min? = some id := by
    have passed := List.find?_some found
    refine List.min?_eq_some_iff.mpr ⟨?_, fun other pending => ?_⟩
    · exact (mem_pending_iff parted calledOccurs).mpr
        ⟨List.mem_of_find?_eq_some found, of_decide_eq_true passed⟩
    · obtain ⟨isLeft, isCalled⟩ := (mem_pending_iff parted calledOccurs).mp pending
      exact le_of_find?_eq_some sorted found isLeft (decide_eq_true isCalled)
  rw [subStep, least]
  rfl

/-- The loop over the subs ends, if all numbers that can be called are left or written. -/
theorem halts_subs (sorted : left.Pairwise (· ≤ ·)) (parted : Parted occurs left (done.map Prod.fst))
    (calledOccurs : ∀ key ∈ called, occurs key)
    (callsOccur : ∀ id, ∀ key ∈ (plan.outlineAt id).calls, occurs key) :
    ∃ all, Halts plan.subStep (called, done) (all, done ++ plan.subs left called) := by
  fun_induction subs plan left called generalizing done with
  | case1 left called none_left =>
      rw [List.append_nil]
      exact ⟨called, .stop (subStep_eq_none parted calledOccurs none_left)⟩
  | case2 left called id found outline =>
      rename_i ih
      have moved : Parted occurs (left.erase id) ((done ++ [(id, outline)]).map Prod.fst) := by
        rw [List.map_append]
        exact parted.move id
      obtain ⟨all, rest⟩ := ih (sorted.sublist List.erase_sublist) moved
        (List.forall_mem_append.mpr ⟨callsOccur id, calledOccurs⟩)
      rw [List.append_assoc] at rest
      exact ⟨all, .next (subStep_eq_some sorted parted calledOccurs found) rest⟩

end

end Plan

/-! ## The whole way -/

/-- The loop over the subs of a plan ends: what is called anywhere is a child, so it is mentioned in the graph. -/
theorem Plan.halts_draft {plan : Plan} (acyclic : plan.openings.Acyclic) :
    ∃ called, Halts plan.subStep ((plan.draw Graph.entry false).calls, []) (called, (Draft.ofPlan plan).subs) := by
  have callsOccur : ∀ id, ∀ key ∈ (plan.outlineAt id).calls, ∃ parent, plan.graph.Child parent key :=
    fun id key isCalled => (writes_draw acyclic id false).exists_child isCalled
  have ascending : ((plan.graph.mentioned Graph.entry).mergeSort).Pairwise (· ≤ ·) :=
    List.pairwise_mergeSort' (· ≤ ·) _
  refine halts_subs ascending ⟨?_, ?_, ?_⟩ (callsOccur Graph.entry) callsOccur
  · exact (List.mergeSort_perm _ _).nodup_iff.mpr (Graph.nodup_mentioned _ _)
  · rintro key ⟨parent, edge⟩
    exact .inl (List.mem_mergeSort.mpr (Graph.mem_mentioned_of_child edge))
  · intro key _ isWritten
    cases isWritten

/-- Decompilation ends on every graph. Flattening, promotion and both searches for the reachable nodes end; then
either the decisions are refused, or joining ends, no node is met while it is open, plain recursion gives the text of
every node, and the loop over the subs ends with those of the script. -/
theorem decompileGraph_halts (graph : Graph) :
    Halts Graph.flattenStep graph graph.flatten ∧
      Halts Graph.promoteStep graph.flatten graph.flatten.promote ∧
      (∀ stage ∈ [graph.flatten.promote, graph.simplify], ∃ met,
        Halts (Search.gatherStep stage.children) ([Graph.entry], []) ([], met) ∧
          stage.reachable Graph.entry = met.mergeSort) ∧
      ((∃ fault, Plan.ofGraph graph = .error fault ∧ ∀ width, decompileGraph graph width = .error fault) ∨
        ∃ plan called subs, Plan.ofGraph graph = .ok plan ∧
          Halts (joinStep plan.references plan.tests) (graph.simplify.ids, graph.simplify) ([], plan.graph) ∧
          plan.openings.Acyclic ∧
          (∀ id inGroupBlock outline,
            plan.Writes id inGroupBlock outline ↔ outline = plan.draw id inGroupBlock) ∧
          Halts plan.subStep ((plan.draw Graph.entry false).calls, []) (called, subs) ∧
          ∀ width, decompileGraph graph width =
            .ok (Draft.text ⟨plan.groups, plan.draw Graph.entry false, subs⟩ width)) := by
  refine ⟨graph.halts_flatten, graph.flatten.halts_promote, fun stage _ => stage.halts_reachable, ?_⟩
  cases made : Plan.ofGraph graph with
  | error fault =>
      refine .inl ⟨fault, rfl, fun width => ?_⟩
      rw [decompileGraph, made]
      rfl
  | ok plan =>
      have acyclic := (counted_of_ofGraph made).acyclic_openings
      obtain ⟨called, ends⟩ := Plan.halts_draft acyclic
      refine .inr ⟨plan, called, _, rfl, ?_, acyclic, fun id inGroupBlock outline => ?_, ends, fun width => ?_⟩
      · obtain ⟨tests, _, built⟩ := Success.bind_eq_ok_iff.mp made
        cases built
        exact halts_joinChains _ _ _ _
      · constructor
        · exact Plan.Writes.eq_draw acyclic
        · rintro rfl
          exact Plan.writes_draw acyclic id inGroupBlock
      · rw [decompileGraph, made]
        rfl

end Outline

end MissionGraph
