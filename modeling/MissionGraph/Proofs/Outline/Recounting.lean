import Mathlib
import MissionGraph.Proofs.Outline.Followers

/-!
# References after joining

References are counted before chains are joined, and the counts are used after it. Joining takes a decision out of the
graph together with the one place where it stands, and moves its own children to another node, which may lie on the same
cycle. So a count of the joined graph gives the same numbers for all nodes but those that were taken in.
-/

namespace MissionGraph.Outline

variable {graph joined : Graph} {groups : List Script.Group} {references : References}
  {tests : List (NodeId × Tests)} {id next : NodeId} {node nextNode : Node} {gone : List NodeId}

/-- The numbers of the nodes that have been taken in by others. -/
def absorbed (graph joined : Graph) : List NodeId :=
  graph.ids.filter fun id => !joined.contains id

/-- What joining has taken in so far: each of the numbers is missing once among the stored ones and once among all
children. They belonged to decisions that are referred to only once, and no new decision has been made. -/
structure Absorbs (graph : Graph) (references : References) (joined : Graph) (gone : List NodeId) : Prop where
  ids : graph.ids.Perm (gone ++ joined.ids)
  children : (graph.ids.flatMap graph.children).Perm (gone ++ joined.ids.flatMap joined.children)
  alone : ∀ id ∈ gone, references.count id ≤ 1
  decision : ∀ id ∈ gone, IsDecision graph id
  left : ∀ id, IsDecision joined id → IsDecision graph id

theorem isDecision_of_joinable? (found : joinable? references joined id = some (node, next, nextNode)) :
    IsDecision joined next := by
  obtain ⟨_, _, foundNext, _, _, isNamed⟩ := joinable?_eq_some_iff.mp found
  obtain ⟨content, ways⟩ := nextNode
  cases content with
  | data data => cases isNamed
  | documentation text => cases isNamed
  | choice conditions => cases isNamed
  | decision nickname => exact ⟨nickname, ways, foundNext⟩

namespace Absorbs

theorem refl (graph : Graph) (references : References) : Absorbs graph references graph [] where
  ids := .refl _
  children := .refl _
  alone := fun _ member => absurd member List.not_mem_nil
  decision := fun _ member => absurd member List.not_mem_nil
  left := fun _ decision => decision

/-- One decision more is taken in. -/
theorem join (absorbs : Absorbs graph references joined gone) (counted : Counted references joined)
    (tests : List (NodeId × Tests)) (found : joinable? references joined id = some (node, next, nextNode)) :
    Absorbs graph references (join tests joined id node next nextNode) (gone ++ [next]) := by
  obtain ⟨stored, _, storedNext, different, alone, _⟩ := joinable?_eq_some_iff.mp found
  obtain ⟨before, after⟩ := ids_join tests different stored storedNext
  have moved := children_join different stored storedNext rfl (counted.children_eq tests found)
  have decision := absorbs.left next (isDecision_of_joinable? found)
  refine ⟨?_, ?_, ?_, ?_, fun key isLeft => absorbs.left key isLeft.of_join.1⟩
  · rw [List.append_assoc]
    exact absorbs.ids.trans ((before.trans (after.symm.cons next)).append_left gone)
  · rw [List.append_assoc]
    exact absorbs.children.trans (moved.append_left gone)
  · exact List.forall_mem_append.mpr ⟨absorbs.alone, List.forall_mem_singleton.mpr alone⟩
  · exact List.forall_mem_append.mpr ⟨absorbs.decision, List.forall_mem_singleton.mpr decision⟩

theorem joinChains (absorbs : Absorbs graph references joined gone) (counted : Counted references joined)
    (tests : List (NodeId × Tests)) (queue : List NodeId) :
    ∃ gone, Absorbs graph references (joinChains references tests queue joined) gone := by
  fun_induction Outline.joinChains references tests queue joined generalizing gone with
  | case1 joined => exact ⟨gone, absorbs⟩
  | case2 joined id rest node next nextNode found ih =>
      exact ih (absorbs.join counted tests found) (counted.join tests found)
  | case3 joined id rest none_found ih => exact ih absorbs counted

theorem mem_absorbed_iff (absorbs : Absorbs graph references joined gone) : id ∈ absorbed graph joined ↔ id ∈ gone := by
  have apart := (List.nodup_append.mp (absorbs.ids.nodup_iff.mp graph.nodup_ids)).2.2
  rw [absorbed, List.mem_filter, absorbs.ids.mem_iff, List.mem_append, Bool.not_eq_true', ← Bool.not_eq_true,
    Graph.contains_iff, ← Graph.mem_ids_iff]
  constructor
  · rintro ⟨isGone | isLeft, missing⟩
    · exact isGone
    · exact absurd isLeft missing
  · intro isGone
    exact ⟨.inl isGone, fun isLeft => apart id isGone id isLeft rfl⟩

/-- The uses of a number are divided among those that are gone and those that are left. -/
theorem uses_eq_add (absorbs : Absorbs graph references joined gone) (id : NodeId) :
    graph.uses id = gone.count id + joined.uses id := by
  rw [Graph.uses, Graph.uses, absorbs.children.count_eq, List.count_append, Nat.add_assoc]

theorem uses_eq_of_not_mem (absorbs : Absorbs graph references joined gone) (isLeft : id ∉ gone) :
    joined.uses id = graph.uses id := by
  rw [absorbs.uses_eq_add id, List.count_eq_zero_of_not_mem isLeft, Nat.zero_add]

/-- What has been taken in was used once, and is not used any more. -/
theorem uses_of_mem (absorbs : Absorbs graph references joined gone) (count : references.count id = graph.uses id)
    (isGone : id ∈ gone) : graph.uses id = 1 ∧ joined.uses id = 0 := by
  have divided := absorbs.uses_eq_add id
  have once := absorbs.alone id isGone
  have positive := List.count_pos_iff.mpr isGone
  omega

end Absorbs

/-- After joining, in whatever order nodes are visited, a new count of the references is the old one without the
numbers that have been taken in. These belonged to decisions that were referred to once. So the old count is the true
one for every number that can be met in the joined graph. -/
theorem references_joinChains (rooted : graph.Rooted)
    (told : Outline.tests graph groups (graph.references Graph.entry) = .ok tests) (queue : List NodeId) :
    let references := graph.references Graph.entry
    let joined := joinChains references tests queue graph
    joined.references Graph.entry = references.filter (fun id _ => decide (id ∉ absorbed graph joined)) ∧
      (∀ id ∈ absorbed graph joined, references[id]? = some 1 ∧ IsDecision graph id) ∧
      ∀ id, joined.Reaches Graph.entry id →
        References.count references id = References.count (joined.references Graph.entry) id := by
  intro references joined
  have counted := Counted.of_tests rooted told
  have stillRooted : joined.Rooted := (counted.joinChains tests queue).rooted
  obtain ⟨gone, absorbs⟩ := (Absorbs.refl graph references).joinChains counted tests queue
  have gone_uses {id : NodeId} (isGone : id ∈ gone) := absorbs.uses_of_mem (count_references rooted id) isGone
  refine ⟨Std.ExtTreeMap.ext_getElem? fun {id} => ?_, fun id member => ⟨?_, ?_⟩, fun id path => ?_⟩
  · rw [stillRooted.getElem?_references, Std.ExtTreeMap.getElem?_filter', rooted.getElem?_references]
    by_cases taken : id ∈ absorbed graph joined
    · rw [if_pos (gone_uses (absorbs.mem_absorbed_iff.mp taken)).2, decide_eq_false (not_not_intro taken)]
      split <;> rfl
    · rw [absorbs.uses_eq_of_not_mem fun isGone => taken (absorbs.mem_absorbed_iff.mpr isGone), decide_eq_true taken]
      split <;> rfl
  · rw [rooted.getElem?_references, (gone_uses (absorbs.mem_absorbed_iff.mp member)).1]
    rfl
  · exact absorbs.decision id (absorbs.mem_absorbed_iff.mp member)
  · have used := Graph.uses_pos_of_reaches path
    have isLeft : id ∉ gone := fun isGone => Nat.ne_of_gt used (gone_uses isGone).2
    rw [count_references rooted, count_references stillRooted, absorbs.uses_eq_of_not_mem isLeft]

/-- A chain that leads back to its start, and a choice at whose end a decision is left. One child is not stored. -/
def loopedChain : Graph :=
  Graph.empty
    |>.insert 2 ⟨.decision "a", [3, 5]⟩
    |>.insert 3 ⟨.documentation "shared", [2, 9]⟩
    |>.insert 4 ⟨.decision "c", [3, 2]⟩
    |>.insert 5 ⟨.decision "b", [6, 4]⟩
    |>.insert 6 ⟨.choice [.named "d"], [3, 7]⟩
    |>.insert 7 ⟨.decision "e", [3, 3]⟩

def testsOfLoopedChain : List (NodeId × Tests) :=
  [(2, ⟨.named "a", none⟩), (4, ⟨.named "c", none⟩), (5, ⟨.named "b", none⟩), (7, ⟨.named "e", none⟩)]

def loopedChainJoined : Graph :=
  joinChains (loopedChain.references Graph.entry) testsOfLoopedChain loopedChain.ids loopedChain

/-- Three decisions are taken in, two of them by the entry, which is on the cycle. -/
theorem references_loopedChainJoined :
    loopedChain.Rooted ∧
      Outline.tests loopedChain [] (loopedChain.references Graph.entry) = .ok testsOfLoopedChain ∧
      absorbed loopedChain loopedChainJoined = [4, 5, 7] ∧
      loopedChainJoined.children 2 = [3, 6, 3, 2] ∧
      (loopedChain.references Graph.entry).toList = [(2, 3), (3, 5), (4, 1), (5, 1), (6, 1), (7, 1), (9, 1)] ∧
      loopedChainJoined.references Graph.entry = (loopedChain.references Graph.entry).filter
        (fun id _ => decide (id ∉ absorbed loopedChain loopedChainJoined)) := by
  have rooted : loopedChain.Rooted := Graph.unreachable_eq_nil_iff.mp (by cbv)
  have told : Outline.tests loopedChain [] (loopedChain.references Graph.entry) = .ok testsOfLoopedChain := by cbv
  exact ⟨rooted, told, by cbv, by cbv, by cbv, (references_joinChains rooted told loopedChain.ids).1⟩

end MissionGraph.Outline
