import Mathlib
import MissionGraph.Proofs.Outline.Followers

/-!
# Which chains are joined whole

Every node is visited once, in the order of the numbers, and a node that has taken in a decision is visited again
after all others. On its first visit a decision takes in the decision behind it, unless that one has become a choice
before; on its second visit a choice takes in one decision more. A choice is never taken in. So a chain of decisions
becomes one choice exactly if it has two decisions, or three of which the first has a smaller number than the second.
-/

namespace MissionGraph.Outline

variable {graph joined : Graph} {groups : List Script.Group} {references : References}
  {tests : List (NodeId × Tests)} {parts : NodeId → List NodeId} {id key next first second other : NodeId}
  {node nextNode : Node} {rest again : List NodeId}

/-! ## One visit -/

/-- Only nodes that are still to be visited can take in a decision. -/
def Settled (references : References) (joined : Graph) (todo : List NodeId) : Prop :=
  ∀ id, id ∉ todo → joinable? references joined id = none

theorem Settled.skip {todo : List NodeId} (settled : Settled references joined (id :: todo))
    (nothing : joinable? references joined id = none) : Settled references joined todo := by
  intro key notTodo
  by_cases isId : key = id
  · exact isId ▸ nothing
  · exact settled key (List.not_mem_cons_of_ne_of_not_mem isId notTodo)

theorem Settled.join {todo : List NodeId} (settled : Settled references joined (id :: todo)) :
    Settled references (join tests joined id node next nextNode) (todo ++ [id]) := by
  intro key notTodo
  rw [List.mem_append, List.mem_singleton, not_or] at notTodo
  exact joinable?_join_eq_none (settled key (List.not_mem_cons_of_ne_of_not_mem notTodo.2 notTodo.1)) notTodo.2

/-- The nodes that are visited again are choices, also with the one that takes in a decision. -/
theorem isChoice_of_mem_queue (queued : ∀ key ∈ again, IsChoice joined key)
    (found : joinable? references joined id = some (node, next, nextNode)) :
    ∀ key ∈ again ++ [id], IsChoice (join tests joined id node next nextNode) key := by
  intro key member
  rw [isChoice_join_iff found]
  rcases List.mem_append.mp member with earlier | isId
  · exact .inr (queued key earlier)
  · exact .inl (List.mem_singleton.mp isId)

/-- What stands behind a decision can no longer be taken in. -/
def Ends (graph : Graph) (references : References) (joined : Graph) (id : NodeId) : Prop :=
  ∀ next, Follows graph references id next → IsChoice joined next

theorem Ends.join (ends : Ends graph references joined key)
    (found : joinable? references joined id = some (node, next, nextNode)) :
    Ends graph references (join tests joined id node next nextNode) key :=
  fun last follows => (isChoice_join_iff found).mpr (.inr (ends last follows))

/-! ## The first visits -/

/-- The state while some nodes have not been visited yet: a choice consists of two decisions, and a decision that has
been visited takes in nothing, since what stands behind it was visited earlier and is a choice. -/
structure FirstVisits (graph : Graph) (references : References) (tests : List (NodeId × Tests))
    (rest again : List NodeId) (joined : Graph) (parts : NodeId → List NodeId) : Prop where
  divided : Divided graph references tests joined parts
  ascending : rest.Pairwise (· < ·)
  visited : ∀ id ∈ graph.ids, id ∉ rest → ∀ later ∈ rest, id < later
  unjoined : ∀ id ∈ rest, ¬ IsChoice joined id
  behind : ∀ id, IsDecision joined id → id ∉ rest → ∀ next, Follows graph references id next →
    next < id ∧ IsChoice joined next
  pairs : ∀ id, IsChoice joined id → ∃ second, parts id = [id, second] ∧ Follows graph references id second ∧
    (id < second ∨ Ends graph references joined second)
  queued : ∀ id ∈ again, IsChoice joined id
  settled : Settled references joined (rest ++ again)

namespace FirstVisits

/-- A decision that takes in nothing on its visit has a choice behind it. -/
theorem behind_visited (state : FirstVisits graph references tests (id :: rest) again joined parts)
    (readable : Readable graph groups references tests) (counted : Counted references graph)
    (nothing : joinable? references joined id = none) (decision : IsDecision joined id)
    (follows : Follows graph references id next) : next < id ∧ IsChoice joined next := by
  obtain ⟨nickname, children, found⟩ := decision
  have plain : ¬ IsChoice joined id := fun choice => choice.not_isDecision ⟨_, _, found⟩
  obtain ⟨single, _⟩ := state.divided.parts_eq_singleton found plain
  have isChoice : IsChoice joined next := by
    obtain ⟨owner, kept, rfl | within⟩ := state.divided.exists_owner follows.stored.2
    · refine (state.divided.isDecision_or_isChoice kept follows.isDecision).resolve_left ?_
      rintro ⟨other, ways, foundNext⟩
      have resort := ((state.divided.stands id _ found).lastResort?_eq_some_iff readable follows.isDecision
        follows.alone).mpr ⟨id, by rw [single]; rfl, follows⟩
      have joins := joinable?_eq_some_iff.mpr
        ⟨found, resort, foundNext, (follows.ne counted).symm, follows.alone, rfl⟩
      rw [nothing] at joins
      cases joins
    · -- the decision would have been taken in by the one before it, which is still a decision
      have choice := state.divided.isChoice_of_mem_tail kept within
      obtain ⟨second, isPair, behindOwner, _⟩ := state.pairs owner choice
      rw [isPair] at within
      obtain rfl := List.mem_singleton.mp within
      obtain rfl := follows.eq_first counted behindOwner
      exact absurd choice plain
  refine ⟨?_, isChoice⟩
  exact state.visited next follows.stored.2 (fun member => state.unjoined next member isChoice) id List.mem_cons_self

theorem visited_tail (state : FirstVisits graph references tests (id :: rest) again joined parts) :
    ∀ key ∈ graph.ids, key ∉ rest → ∀ later ∈ rest, key < later := by
  intro key stored notRest later isLater
  by_cases isId : key = id
  · exact isId ▸ (List.pairwise_cons.mp state.ascending).1 later isLater
  · exact state.visited key stored (List.not_mem_cons_of_ne_of_not_mem isId notRest) later
      (List.mem_cons_of_mem id isLater)

theorem skip (state : FirstVisits graph references tests (id :: rest) again joined parts)
    (readable : Readable graph groups references tests) (counted : Counted references graph)
    (nothing : joinable? references joined id = none) :
    FirstVisits graph references tests rest again joined parts where
  divided := state.divided
  ascending := (List.pairwise_cons.mp state.ascending).2
  visited := state.visited_tail
  unjoined := fun key member => state.unjoined key (List.mem_cons_of_mem id member)
  behind := by
    intro key decision notRest next follows
    by_cases isId : key = id
    · subst isId
      exact state.behind_visited readable counted nothing decision follows
    · exact state.behind key decision (List.not_mem_cons_of_ne_of_not_mem isId notRest) next follows
  pairs := state.pairs
  queued := state.queued
  settled := state.settled.skip nothing

theorem join (state : FirstVisits graph references tests (id :: rest) again joined parts)
    (readable : Readable graph groups references tests)
    (found : joinable? references joined id = some (node, next, nextNode)) :
    FirstVisits graph references tests rest (again ++ [id]) (join tests joined id node next nextNode)
      (partsWith parts id next) where
  divided := state.divided.join readable found
  ascending := (List.pairwise_cons.mp state.ascending).2
  visited := state.visited_tail
  unjoined := by
    intro key member choice
    rcases (isChoice_join_iff found).mp choice with rfl | choice
    · exact Nat.lt_irrefl key ((List.pairwise_cons.mp state.ascending).1 key member)
    · exact state.unjoined key (List.mem_cons_of_mem id member) choice
  behind := by
    intro key decision notRest last follows
    obtain ⟨decision, notId⟩ := decision.of_join
    obtain ⟨less, choice⟩ :=
      state.behind key decision (List.not_mem_cons_of_ne_of_not_mem notId notRest) last follows
    exact ⟨less, (isChoice_join_iff found).mpr (.inr choice)⟩
  pairs := by
    intro key choice
    by_cases isId : key = id
    · subst isId
      obtain ⟨foundKey, _, _, different, _⟩ := joinable?_eq_some_iff.mp found
      have single := (state.divided.parts_eq_singleton foundKey (state.unjoined key List.mem_cons_self)).1
      obtain ⟨decision, last, isLast, follows⟩ := state.divided.follows_of_joinable? readable found
      rw [single] at isLast
      obtain rfl : key = last := Option.some.inj isLast
      refine ⟨next, by rw [partsWith, if_pos rfl, single]; rfl, follows, ?_⟩
      by_cases later : next ∈ rest
      · exact .inl ((List.pairwise_cons.mp state.ascending).1 next later)
      · have ends : Ends graph references joined next := fun last behind =>
          (state.behind next decision (List.not_mem_cons_of_ne_of_not_mem different later) last behind).2
        exact .inr (ends.join found)
    · obtain ⟨second, isPair, follows, order⟩ := state.pairs key (((isChoice_join_iff found).mp choice).resolve_left isId)
      exact ⟨second, by rw [partsWith, if_neg isId, isPair], follows, order.imp_right (·.join found)⟩
  queued := isChoice_of_mem_queue state.queued found
  settled := by
    rw [← List.append_assoc]
    exact Settled.join state.settled

theorem start (readable : Readable graph groups references tests) :
    FirstVisits graph references tests graph.ids [] graph fun id => [id] where
  divided := .refl graph references tests
  ascending := graph.ascending_ids
  visited := fun id stored missing => absurd stored missing
  unjoined := by
    rintro id _ ⟨conditions, children, found⟩
    exact readable.plain id conditions children found
  behind := by
    rintro id ⟨_, _, found⟩ missing
    exact absurd (Graph.mem_ids_iff.mpr ⟨_, found⟩) missing
  pairs := by
    rintro id ⟨conditions, children, found⟩
    exact absurd found (readable.plain id conditions children)
  queued := fun id member => absurd member List.not_mem_nil
  settled := by
    intro id missing
    rw [List.append_nil] at missing
    rw [joinable?, Graph.get?_eq_none_iff.mpr missing]
    rfl

end FirstVisits

/-! ## The further visits -/

/-- The decisions that a choice is made of: two, or three of which the first was visited before the second. -/
inductive Shape (graph : Graph) (references : References) (joined : Graph) (id : NodeId) : List NodeId → Prop where
  | two {second : NodeId} (follows : Follows graph references id second)
      (order : id < second ∨ Ends graph references joined second) : Shape graph references joined id [id, second]
  | three {second third : NodeId} (follows : Follows graph references id second) (order : id < second)
      (further : Follows graph references second third) (ends : Ends graph references joined third) :
      Shape graph references joined id [id, second, third]

/-- The state when all nodes have been visited. -/
structure FurtherVisits (graph : Graph) (references : References) (tests : List (NodeId × Tests))
    (again : List NodeId) (joined : Graph) (parts : NodeId → List NodeId) : Prop where
  divided : Divided graph references tests joined parts
  behind : ∀ id, IsDecision joined id → ∀ next, Follows graph references id next → next < id ∧ IsChoice joined next
  shape : ∀ id, IsChoice joined id → Shape graph references joined id (parts id)
  queued : ∀ id ∈ again, IsChoice joined id
  settled : Settled references joined again

namespace FurtherVisits

theorem skip (state : FurtherVisits graph references tests (id :: again) joined parts)
    (nothing : joinable? references joined id = none) :
    FurtherVisits graph references tests again joined parts where
  divided := state.divided
  behind := state.behind
  shape := state.shape
  queued := fun key member => state.queued key (List.mem_cons_of_mem id member)
  settled := state.settled.skip nothing

/-- A choice that takes in a decision has had two decisions and has three then. -/
theorem shape_join (state : FurtherVisits graph references tests (id :: again) joined parts)
    (readable : Readable graph groups references tests)
    (found : joinable? references joined id = some (node, next, nextNode)) :
    Shape graph references (join tests joined id node next nextNode) id (parts id ++ [next]) := by
  obtain ⟨decision, last, isLast, follows⟩ := state.divided.follows_of_joinable? readable found
  have shape := state.shape id (state.queued id List.mem_cons_self)
  generalize parts id = listed at shape isLast
  cases shape with
  | @two second behind order =>
      obtain rfl : second = last := Option.some.inj isLast
      refine .three behind ?_ follows ?_
      · exact order.resolve_right fun ends => (ends next follows).not_isDecision decision
      · exact Ends.join (fun key further => (state.behind next decision key further).2) found
  | @three second third _ _ _ ends =>
      obtain rfl : third = last := Option.some.inj isLast
      exact absurd decision (ends next follows).not_isDecision

theorem join (state : FurtherVisits graph references tests (id :: again) joined parts)
    (readable : Readable graph groups references tests)
    (found : joinable? references joined id = some (node, next, nextNode)) :
    FurtherVisits graph references tests (again ++ [id]) (join tests joined id node next nextNode)
      (partsWith parts id next) where
  divided := state.divided.join readable found
  behind := by
    intro key decision last follows
    obtain ⟨less, choice⟩ := state.behind key decision.of_join.1 last follows
    exact ⟨less, (isChoice_join_iff found).mpr (.inr choice)⟩
  shape := by
    intro key choice
    by_cases isId : key = id
    · subst isId
      rw [partsWith, if_pos rfl]
      exact state.shape_join readable found
    · have shape := state.shape key (((isChoice_join_iff found).mp choice).resolve_left isId)
      rw [partsWith, if_neg isId]
      generalize parts key = listed at shape
      cases shape with
      | two follows order => exact .two follows (order.imp_right (·.join found))
      | three follows order further ends => exact .three follows order further (ends.join found)
  queued := isChoice_of_mem_queue (fun key member => state.queued key (List.mem_cons_of_mem id member)) found
  settled := state.settled.join

theorem run (state : FurtherVisits graph references tests again joined parts)
    (readable : Readable graph groups references tests) :
    ∃ parts, FurtherVisits graph references tests [] (joinChains references tests again joined) parts := by
  fun_induction joinChains references tests again joined generalizing parts with
  | case1 joined => exact ⟨parts, state⟩
  | case2 joined id again node next nextNode found ih => exact ih (state.join readable found)
  | case3 joined id again nothing ih => exact ih (state.skip nothing)

end FurtherVisits

theorem FirstVisits.further (state : FirstVisits graph references tests [] again joined parts) :
    FurtherVisits graph references tests again joined parts where
  divided := state.divided
  behind := fun id decision => state.behind id decision List.not_mem_nil
  shape := by
    intro id choice
    obtain ⟨second, isPair, follows, order⟩ := state.pairs id choice
    rw [isPair]
    exact .two follows order
  queued := state.queued
  settled := state.settled

theorem FirstVisits.run (state : FirstVisits graph references tests rest again joined parts)
    (readable : Readable graph groups references tests) (counted : Counted references graph) :
    ∃ parts, FurtherVisits graph references tests [] (joinChains references tests (rest ++ again) joined) parts := by
  induction rest generalizing again joined parts with
  | nil => exact state.further.run readable
  | cons id rest ih =>
      rw [List.cons_append, joinChains]
      split
      · rename_i node next nextNode found
        rw [List.append_assoc]
        exact ih (state.join readable found)
      · rename_i nothing
        exact ih (state.skip readable counted nothing)

/-! ## The outcome -/

namespace Shape

variable {listed : List NodeId}

theorem exists_second (shape : Shape graph references joined id listed) :
    ∃ second, Follows graph references id second := by
  cases shape with
  | two follows _ => exact ⟨_, follows⟩
  | three follows _ _ _ => exact ⟨_, follows⟩

theorem exists_previous (shape : Shape graph references joined id listed) (member : key ∈ listed.tail) :
    ∃ previous ∈ listed, Follows graph references previous key := by
  cases shape with
  | two follows _ =>
      obtain rfl := List.mem_singleton.mp member
      exact ⟨id, List.mem_cons_self, follows⟩
  | three follows _ further _ =>
      rcases List.mem_pair.mp member with rfl | rfl
      · exact ⟨id, List.mem_cons_self, follows⟩
      · exact ⟨_, List.mem_cons_of_mem id List.mem_cons_self, further⟩

theorem exists_next (shape : Shape graph references joined id listed) (member : key ∈ listed)
    (notLast : listed.getLast? ≠ some key) : ∃ following ∈ listed.tail, Follows graph references key following := by
  cases shape with
  | two follows _ =>
      rcases List.mem_pair.mp member with rfl | rfl
      · exact ⟨_, List.mem_singleton_self _, follows⟩
      · exact absurd rfl notLast
  | three follows _ further _ =>
      rcases List.mem_cons.mp member with rfl | member
      · exact ⟨_, List.mem_cons_self, follows⟩
      · rcases List.mem_pair.mp member with rfl | rfl
        · exact ⟨_, List.mem_cons_of_mem _ (List.mem_singleton_self _), further⟩
        · exact absurd rfl notLast

end Shape

/-- Nothing is left to be joined: no node ends with a test that is used only there. -/
def JoinedWhole (references : References) (joined : Graph) : Prop :=
  ∀ id node next nextNode, joined.get? id = some node → lastResort? node = some next →
    joined.get? next = some nextNode → references.count next = 1 → Plan.isTest nextNode.content = false

theorem mem_children_of_lastResort? (resort : lastResort? node = some next) : next ∈ node.children := by
  obtain ⟨content, children⟩ := node
  cases content with
  | data data => cases resort
  | documentation text => cases resort
  | decision nickname => exact List.mem_of_getElem? resort
  | choice conditions =>
      rw [lastResort?] at resort
      dsimp only at resort
      split at resort
      · exact List.mem_of_getLast? resort
      · cases resort

namespace FurtherVisits

/-- No decision is left at the end of a node that could take it in. -/
theorem not_isDecision (state : FurtherVisits graph references tests [] joined parts)
    (counted : Counted references joined) (found : joined.get? id = some node) (resort : lastResort? node = some next)
    (alone : references.count next ≤ 1) : ¬ IsDecision joined next := by
  rintro ⟨nickname, children, foundNext⟩
  have different : next ≠ id := by
    rintro rfl
    exact counted.not_child_self alone (Graph.child_of_get? found (mem_children_of_lastResort? resort))
  have joins := joinable?_eq_some_iff.mpr ⟨found, resort, foundNext, different, alone, rfl⟩
  rw [state.settled id List.not_mem_nil] at joins
  cases joins

/-- If nothing is left to be joined, then a decision is in one choice with the decision that stands behind it. -/
theorem exists_choice (state : FurtherVisits graph references tests [] joined parts)
    (readable : Readable graph groups references tests) (counted : Counted references graph)
    (whole : JoinedWhole references joined) (used : references.count second = 1)
    (follows : Follows graph references first second) :
    ∃ owner, IsChoice joined owner ∧ owner ∈ joined.ids ∧ first ∈ parts owner ∧ second ∈ (parts owner).tail := by
  obtain ⟨owner, kept, rfl | within⟩ := state.divided.exists_owner follows.stored.2
  · -- the second decision is still stored, so that it cannot be left at the end of the node with the first one
    exfalso
    obtain ⟨home, keptHome, isFirst⟩ := state.divided.exists_owner follows.stored.1
    obtain ⟨node, found⟩ := Graph.mem_ids_iff.mp keptHome
    have notLast : (parts home).getLast? ≠ some first := by
      intro isLast
      have resort := ((state.divided.stands home node found).lastResort?_eq_some_iff readable follows.isDecision
        follows.alone).mpr ⟨first, isLast, follows⟩
      rcases state.divided.isDecision_or_isChoice kept follows.isDecision with
        ⟨_, _, foundSecond⟩ | ⟨_, _, foundSecond⟩
      · cases whole home node second _ found resort foundSecond used
      · cases whole home node second _ found resort foundSecond used
    have member : first ∈ parts home := by
      rw [state.divided.parts_eq_cons keptHome]
      exact List.mem_cons.mpr isFirst
    by_cases choice : IsChoice joined home
    · obtain ⟨following, within, behind⟩ := (state.shape home choice).exists_next member notLast
      obtain rfl := follows.eq_second behind
      have own : second ∈ parts second := by
        rw [state.divided.parts_eq_cons kept]
        exact List.mem_cons_self
      obtain rfl := state.divided.owner_eq keptHome kept (List.mem_of_mem_tail within) own
      have nodup := state.divided.nodup_parts keptHome
      rw [state.divided.parts_eq_cons keptHome, List.nodup_cons] at nodup
      exact nodup.1 within
    · rw [(state.divided.parts_eq_singleton found choice).1] at member notLast
      obtain rfl := List.mem_singleton.mp member
      exact notLast rfl
  · have choice := state.divided.isChoice_of_mem_tail kept within
    obtain ⟨previous, member, behind⟩ := (state.shape owner choice).exists_previous within
    obtain rfl := follows.eq_first counted behind
    exact ⟨owner, choice, kept, member, within⟩

/-- A choice that holds three decisions one behind the other holds no more than those. -/
theorem shape_of_three (state : FurtherVisits graph references tests [] joined parts)
    (counted : Counted references graph) {owner third : NodeId} (choice : IsChoice joined owner)
    (kept : owner ∈ joined.ids) (follows : Follows graph references first second)
    (further : Follows graph references second third) (hasSecond : second ∈ (parts owner).tail)
    (hasThird : third ∈ (parts owner).tail) :
    parts owner = [first, second, third] ∧ first < second := by
  have shape := state.shape owner choice
  have nodup := state.divided.nodup_parts kept
  generalize parts owner = listed at shape nodup hasSecond hasThird
  cases shape with
  | two _ _ =>
      obtain rfl := List.mem_singleton.mp hasSecond
      obtain rfl := List.mem_singleton.mp hasThird
      exact absurd rfl (further.ne counted)
  | @three x y behindOwner order behind _ =>
      rcases List.mem_pair.mp hasSecond with rfl | rfl
      · obtain rfl := follows.eq_first counted behindOwner
        obtain rfl := further.eq_second behind
        exact ⟨rfl, order⟩
      · rcases List.mem_pair.mp hasThird with rfl | rfl
        · obtain rfl := further.eq_first counted behindOwner
          simp at nodup
        · exact absurd rfl (further.ne counted)

/-- Behind the last part of a node whose end is a choice there is no room for a chain that is short enough. -/
theorem exists_long_chain (state : FurtherVisits graph references tests [] joined parts)
    (readable : Readable graph groups references tests) (found : joined.get? id = some node)
    (resort : lastResort? node = some next) (alone : references.count next ≤ 1) (choice : IsChoice joined next) :
    ∃ first second third, Follows graph references first second ∧ Follows graph references second third ∧
      (second < first ∨ ∃ fourth, Follows graph references third fourth) := by
  obtain ⟨following, behindNext⟩ := (state.shape next choice).exists_second
  obtain ⟨last, isLast, follows⟩ := ((state.divided.stands id node found).lastResort?_eq_some_iff readable
    behindNext.isDecision_first alone).mp resort
  by_cases joinedBefore : IsChoice joined id
  · have shape := state.shape id joinedBefore
    generalize parts id = listed at shape isLast
    cases shape with
    | @two second behind _ =>
        obtain rfl : second = last := Option.some.inj isLast
        exact ⟨id, second, next, behind, follows, .inr ⟨following, behindNext⟩⟩
    | @three second third _ _ behind _ =>
        obtain rfl : third = last := Option.some.inj isLast
        exact ⟨second, third, next, behind, follows, .inr ⟨following, behindNext⟩⟩
  · obtain ⟨single, foundBefore⟩ := state.divided.parts_eq_singleton found joinedBefore
    rw [single] at isLast
    obtain rfl : id = last := Option.some.inj isLast
    obtain ⟨nickname, ways, foundDecision⟩ := follows.isDecision_first
    rw [foundBefore] at foundDecision
    cases foundDecision
    exact ⟨id, next, following, follows, behindNext, .inl (state.behind id ⟨_, _, found⟩ next follows).1⟩

end FurtherVisits

/-- No decision is left that could be joined, but choices are: nothing is left exactly if every chain of decisions that
are used only there has at most three of them, and if of three the first has a smaller number than the second. -/
theorem joinedWhole_iff (readable : Readable graph groups (graph.references Graph.entry) tests)
    (rooted : graph.Rooted) :
    let references := graph.references Graph.entry
    let joined := joinChains references tests graph.ids graph
    (∀ id node next, joined.get? id = some node → lastResort? node = some next →
      References.count references next = 1 → ¬ IsDecision joined next) ∧
    (JoinedWhole references joined ↔
      ∀ first second third, Follows graph references first second → Follows graph references second third →
        first < second ∧ ∀ fourth, ¬ Follows graph references third fourth) := by
  intro references joined
  have counted := Counted.of_tests rooted readable.tests
  obtain ⟨parts, state⟩ := (FirstVisits.start readable).run readable counted
  rw [List.append_nil] at state
  have left : ∀ id node next, joined.get? id = some node → lastResort? node = some next →
      References.count references next = 1 → ¬ IsDecision joined next := fun id node next found resort once =>
    state.not_isDecision (counted.joinChains tests graph.ids) found resort (Nat.le_of_eq once)
  have used {first second : NodeId} (follows : Follows graph references first second) :
      References.count references second = 1 := by
    refine Nat.le_antisymm follows.alone ?_
    rw [count_references rooted]
    exact Nat.le_add_right_of_le (List.count_pos_iff.mpr (Graph.mem_uses_iff.mpr ⟨first, follows.child⟩))
  refine ⟨left, fun whole first second third follows further => ?_, fun short => ?_⟩
  · obtain ⟨owner, choice, kept, _, hasSecond⟩ :=
      state.exists_choice readable counted whole (used follows) follows
    have hold {key next : NodeId} (member : key ∈ (parts owner).tail) (behind : Follows graph references key next) :
        next ∈ (parts owner).tail := by
      obtain ⟨other, _, keptOther, hasKey, hasNext⟩ := state.exists_choice readable counted whole (used behind) behind
      obtain rfl := state.divided.owner_eq kept keptOther (List.mem_of_mem_tail member) hasKey
      exact hasNext
    have hasThird := hold hasSecond further
    obtain ⟨isThree, less⟩ := state.shape_of_three counted choice kept follows further hasSecond hasThird
    refine ⟨less, fun fourth behind => ?_⟩
    have shifted := (state.shape_of_three counted choice kept further behind hasThird (hold hasThird behind)).1
    exact follows.ne counted (List.cons.inj (isThree.symm.trans shifted)).1
  · intro id node next nextNode found resort foundNext once
    rw [Bool.eq_false_iff]
    intro test
    have choice : IsChoice joined next := by
      obtain ⟨content, children⟩ := nextNode
      cases content with
      | data data => cases test
      | documentation text => cases test
      | decision nickname => exact absurd ⟨_, _, foundNext⟩ (left id node next found resort once)
      | choice conditions => exact ⟨_, _, foundNext⟩
    obtain ⟨first, second, third, follows, further, long⟩ :=
      state.exists_long_chain readable found resort (Nat.le_of_eq once) choice
    obtain ⟨less, none⟩ := short first second third follows further
    rcases long with greater | ⟨fourth, behind⟩
    · exact Nat.lt_asymm less greater
    · exact none fourth behind

/-- A chain of three decisions with ascending numbers. -/
def threeDecisions : Graph :=
  Graph.empty
    |>.insert 2 ⟨.decision "Pre_battle", [3, 4]⟩
    |>.insert 3 ⟨.documentation "end", []⟩
    |>.insert 4 ⟨.decision "Success", [3, 5]⟩
    |>.insert 5 ⟨.decision "Timeout", [3, 3]⟩

def testsOfThreeDecisions : List (NodeId × Tests) :=
  [(2, ⟨.named "Pre_battle", none⟩), (4, ⟨.named "Success", none⟩), (5, ⟨.named "Timeout", none⟩)]

/-- The chain of three decisions is short enough, so that it is joined whole. -/
theorem joinedWhole_threeDecisions :
    threeDecisions.Rooted ∧
      Readable threeDecisions (Outline.groups threeDecisions) (threeDecisions.references Graph.entry)
        testsOfThreeDecisions ∧
      JoinedWhole (threeDecisions.references Graph.entry)
        (joinChains (threeDecisions.references Graph.entry) testsOfThreeDecisions threeDecisions.ids threeDecisions) := by
  have nodeAt {id : NodeId} {node : Node} (found : threeDecisions.get? id = some node) :
      id = 2 ∧ node = ⟨.decision "Pre_battle", [3, 4]⟩ ∨ id = 3 ∧ node = ⟨.documentation "end", []⟩ ∨
        id = 4 ∧ node = ⟨.decision "Success", [3, 5]⟩ ∨ id = 5 ∧ node = ⟨.decision "Timeout", [3, 3]⟩ := by
    have listed : threeDecisions.toList = [(2, ⟨.decision "Pre_battle", [3, 4]⟩), (3, ⟨.documentation "end", []⟩),
        (4, ⟨.decision "Success", [3, 5]⟩), (5, ⟨.decision "Timeout", [3, 3]⟩)] := by decide +kernel
    simpa only [listed, List.mem_cons, List.not_mem_nil, or_false, Prod.mk.injEq] using Graph.mem_toList_iff.mpr found
  have rooted : threeDecisions.Rooted := Graph.unreachable_eq_nil_iff.mp (by cbv)
  have readable : Readable threeDecisions (Outline.groups threeDecisions) (threeDecisions.references Graph.entry)
      testsOfThreeDecisions := by
    refine ⟨fun id conditions children found => ?_, by cbv⟩
    rcases nodeAt found with ⟨_, ⟨⟩⟩ | ⟨_, ⟨⟩⟩ | ⟨_, ⟨⟩⟩ | ⟨_, ⟨⟩⟩
  have following {first second : NodeId}
      (follows : Follows threeDecisions (threeDecisions.references Graph.entry) first second) :
      first = 2 ∧ second = 4 ∨ first = 4 ∧ second = 5 := by
    obtain ⟨_, _, _, _, found, foundSecond, _⟩ := follows
    rcases nodeAt found with ⟨rfl, same⟩ | ⟨_, ⟨⟩⟩ | ⟨rfl, same⟩ | ⟨rfl, same⟩
    · cases same
      exact .inl ⟨rfl, rfl⟩
    · cases same
      exact .inr ⟨rfl, rfl⟩
    · cases same
      rcases nodeAt foundSecond with ⟨⟨⟩, _⟩ | ⟨_, ⟨⟩⟩ | ⟨⟨⟩, _⟩ | ⟨⟨⟩, _⟩
  refine ⟨rooted, readable, (joinedWhole_iff readable rooted).2.mpr fun first second third follows further => ?_⟩
  rcases following follows with ⟨rfl, rfl⟩ | ⟨rfl, rfl⟩
  · rcases following further with ⟨⟨⟩, _⟩ | ⟨_, rfl⟩
    refine ⟨by decide, fun fourth behind => ?_⟩
    rcases following behind with ⟨⟨⟩, _⟩ | ⟨⟨⟩, _⟩
  · rcases following further with ⟨⟨⟩, _⟩ | ⟨⟨⟩, _⟩

/-- A chain of four decisions, and on its first way out a chain of three that does not start with the smallest
number. -/
def longChains : Graph :=
  Graph.empty
    |>.insert 2 ⟨.decision "Pre_battle", [8, 4]⟩
    |>.insert 3 ⟨.documentation "end", []⟩
    |>.insert 4 ⟨.decision "Success", [3, 5]⟩
    |>.insert 5 ⟨.decision "Timeout", [3, 6]⟩
    |>.insert 6 ⟨.decision "Abort", [3, 3]⟩
    |>.insert 7 ⟨.decision "Success", [3, 9]⟩
    |>.insert 8 ⟨.decision "Timeout", [3, 7]⟩
    |>.insert 9 ⟨.decision "Abort", [3, 3]⟩

def testsOfLongChains : List (NodeId × Tests) :=
  [(2, ⟨.named "Pre_battle", none⟩), (4, ⟨.named "Success", none⟩), (5, ⟨.named "Timeout", none⟩),
    (6, ⟨.named "Abort", none⟩), (7, ⟨.named "Success", none⟩), (8, ⟨.named "Timeout", none⟩),
    (9, ⟨.named "Abort", none⟩)]

def longChainsJoined : Graph :=
  joinChains (longChains.references Graph.entry) testsOfLongChains longChains.ids longChains

/-- The chain of four decisions ends as two choices, and of the chain of three the first decision stays alone, although
every decision behind another one is used only there. -/
theorem not_joinedWhole :
    longChains.Acyclic ∧ longChains.Rooted ∧
      Readable longChains (Outline.groups longChains) (longChains.references Graph.entry) testsOfLongChains ∧
      longChainsJoined.get? 2 = some ⟨.choice [.named "Pre_battle", .named "Success"], [8, 3, 5]⟩ ∧
      longChainsJoined.get? 5 = some ⟨.choice [.named "Timeout", .named "Abort"], [3, 3, 3]⟩ ∧
      longChainsJoined.get? 8 = some ⟨.decision "Timeout", [3, 7]⟩ ∧
      longChainsJoined.get? 7 = some ⟨.choice [.named "Success", .named "Abort"], [3, 3, 3]⟩ ∧
      References.count (longChains.references Graph.entry) 5 = 1 ∧
      References.count (longChains.references Graph.entry) 7 = 1 ∧
      ¬ JoinedWhole (longChains.references Graph.entry) longChainsJoined := by
  have sound : ∀ id node, longChains.get? id = some node → node.Sound :=
    Graph.forall_stored_iff.mpr (by decide +kernel)
  have listed : longChainsJoined.toList =
      [(2, ⟨.choice [.named "Pre_battle", .named "Success"], [8, 3, 5]⟩), (3, ⟨.documentation "end", []⟩),
        (5, ⟨.choice [.named "Timeout", .named "Abort"], [3, 3, 3]⟩),
        (7, ⟨.choice [.named "Success", .named "Abort"], [3, 3, 3]⟩), (8, ⟨.decision "Timeout", [3, 7]⟩)] := by cbv
  have first : longChainsJoined.get? 2 = some ⟨.choice [.named "Pre_battle", .named "Success"], [8, 3, 5]⟩ :=
    Graph.mem_toList_iff.mp (by simp [listed])
  have second : longChainsJoined.get? 5 = some ⟨.choice [.named "Timeout", .named "Abort"], [3, 3, 3]⟩ :=
    Graph.mem_toList_iff.mp (by simp [listed])
  have once : References.count (longChains.references Graph.entry) 5 = 1 := by cbv
  refine ⟨Graph.findCycle?_eq_none_iff.mp (by decide +kernel), Graph.unreachable_eq_nil_iff.mp (by cbv),
    ⟨fun id _ _ found => sound id _ found, by cbv⟩, first, second, Graph.mem_toList_iff.mp (by simp [listed]),
    Graph.mem_toList_iff.mp (by simp [listed]), once, by cbv, fun whole => ?_⟩
  cases whole 2 _ 5 _ first rfl second once

end MissionGraph.Outline
