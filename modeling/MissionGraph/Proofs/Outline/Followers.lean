import Mathlib.Data.List.Nodup
import MissionGraph.Proofs.Outline.Openings

/-!
# Decisions behind each other

A decision follows another one if it stands on the second way out of it and is used only there. What can be joined to
a node of the joined graph is what follows the last decision that the node stands for.
-/

namespace MissionGraph.Outline

variable {graph joined : Graph} {groups : List Script.Group} {references : References}
  {tests : List (NodeId × Tests)} {parts : NodeId → List NodeId} {id key next first second other : NodeId}
  {node nextNode : Node}

/-- The second decision stands on the second way out of the first one, and it is used only there. -/
def Follows (graph : Graph) (references : References) (first second : NodeId) : Prop :=
  ∃ nickname one other ways, graph.get? first = some ⟨.decision nickname, [one, second]⟩ ∧
    graph.get? second = some ⟨.decision other, ways⟩ ∧ references.count second ≤ 1

def IsDecision (graph : Graph) (id : NodeId) : Prop :=
  ∃ nickname children, graph.get? id = some ⟨.decision nickname, children⟩

def IsChoice (graph : Graph) (id : NodeId) : Prop :=
  ∃ conditions children, graph.get? id = some ⟨.choice conditions, children⟩

theorem IsChoice.not_isDecision (choice : IsChoice graph id) : ¬ IsDecision graph id := by
  rintro ⟨_, _, found⟩
  obtain ⟨_, _, foundChoice⟩ := choice
  rw [found] at foundChoice
  cases foundChoice

/-! ## Decisions behind each other -/

/-- A node that is used once in a graph whose nodes are all reached is no child of itself. -/
theorem Counted.not_child_self (counted : Counted references graph) (alone : references.count id ≤ 1) :
    ¬ graph.Child id id := by
  intro circle
  have used := Nat.le_trans (counted.uses id) alone
  have below := List.count_pos_iff.mpr (Graph.mem_uses_iff.mpr ⟨id, circle⟩)
  rw [Graph.uses] at used
  have elsewhere {key : NodeId} (path : graph.Reaches Graph.entry key) : key ≠ id := by
    induction path with
    | refl =>
        rintro rfl
        rw [if_pos rfl] at used
        omega
    | tail path edge ih =>
        rintro rfl
        exact ih (parent_eq (by omega) edge circle)
  obtain ⟨node, found, _⟩ := Graph.child_iff.mp circle
  exact elsewhere (counted.rooted id node found) rfl

namespace Follows

theorem child (follows : Follows graph references first second) : graph.Child first second := by
  obtain ⟨_, one, _, _, found, _⟩ := follows
  exact Graph.child_of_get? found (List.mem_cons_of_mem one (List.mem_singleton_self second))

theorem stored (follows : Follows graph references first second) : first ∈ graph.ids ∧ second ∈ graph.ids := by
  obtain ⟨_, _, _, _, found, foundSecond, _⟩ := follows
  exact ⟨Graph.mem_ids_iff.mpr ⟨_, found⟩, Graph.mem_ids_iff.mpr ⟨_, foundSecond⟩⟩

theorem isDecision_first (follows : Follows graph references first second) : IsDecision graph first := by
  obtain ⟨nickname, _, _, _, found, _⟩ := follows
  exact ⟨nickname, _, found⟩

theorem isDecision (follows : Follows graph references first second) : IsDecision graph second := by
  obtain ⟨_, _, nickname, ways, _, found, _⟩ := follows
  exact ⟨nickname, ways, found⟩

theorem alone (follows : Follows graph references first second) : references.count second ≤ 1 := by
  obtain ⟨_, _, _, _, _, _, alone⟩ := follows
  exact alone

/-- At most one decision stands behind a decision. -/
theorem eq_second (follows : Follows graph references first second)
    (others : Follows graph references first other) : second = other := by
  obtain ⟨_, _, _, _, found, _⟩ := follows
  obtain ⟨_, _, _, _, foundOther, _⟩ := others
  rw [found] at foundOther
  cases foundOther
  rfl

/-- A decision stands behind at most one decision. -/
theorem eq_first (counted : Counted references graph) (follows : Follows graph references first second)
    (others : Follows graph references other second) : first = other := by
  have used := Nat.le_trans (counted.uses second) follows.alone
  rw [Graph.uses] at used
  exact parent_eq (by omega) follows.child others.child

theorem ne (counted : Counted references graph) (follows : Follows graph references first second) :
    first ≠ second := by
  rintro rfl
  exact counted.not_child_self follows.alone follows.child

end Follows

/-! ## The end of a chain -/

namespace Chain

variable {conditions : List Script.Condition} {children decisions : List NodeId}

/-- The last child is the second way out of the last decision. -/
theorem exists_last (chain : Chain graph references tests id conditions children decisions) :
    ∃ last nickname one two, decisions.getLast? = some last ∧
      graph.get? last = some ⟨.decision nickname, [one, two]⟩ ∧ children.getLast? = some two := by
  induction chain with
  | @last id one two nickname found => exact ⟨id, nickname, one, two, rfl, found, rfl⟩
  | cons found alone rest ih =>
      obtain ⟨last, nickname, one, two, isLast, foundLast, isTwo⟩ := ih
      exact ⟨last, nickname, one, two, by rw [List.getLast?_cons, isLast]; rfl, foundLast,
        by rw [List.getLast?_cons, isTwo]; rfl⟩

/-- A chain is open at its end if a decision stands behind the last one. -/
theorem isOpen (chain : Chain graph references tests id conditions children decisions)
    (readable : Readable graph groups references tests) {last : NodeId} (isLast : decisions.getLast? = some last)
    (follows : Follows graph references last next) :
    children.getLast? = some next ∧ conditions.length < children.length := by
  induction chain with
  | @last id one two nickname found =>
      obtain rfl : id = last := Option.some.inj isLast
      obtain ⟨_, _, _, _, foundLast, foundNext, _⟩ := follows
      rw [found] at foundLast
      cases foundLast
      rw [Tests.toList, readable.second_eq_none found foundNext]
      exact ⟨rfl, Nat.lt_succ_self 1⟩
  | cons found alone rest ih =>
      obtain ⟨others, rfl, _⟩ := rest.decisions_eq_cons
      rw [List.getLast?_cons_cons] at isLast
      obtain ⟨isNext, isOpen⟩ := ih isLast
      exact ⟨by rw [List.getLast?_cons, isNext]; rfl, Nat.succ_lt_succ isOpen⟩

end Chain

/-- A decision that is used once is the last resort of a node exactly if it stands behind its last part. -/
theorem Stands.lastResort?_eq_some_iff (readable : Readable graph groups references tests) {listed : List NodeId}
    (stands : Stands graph references tests id node listed) (decision : IsDecision graph next)
    (alone : references.count next ≤ 1) :
    lastResort? node = some next ↔ ∃ last, listed.getLast? = some last ∧ Follows graph references last next := by
  obtain ⟨nickname, ways, foundNext⟩ := decision
  constructor
  · intro resort
    obtain ⟨conditions, chain, _, isNext, _⟩ := stands.front readable resort foundNext
    obtain ⟨last, name, one, two, isLast, foundLast, isTwo⟩ := chain.exists_last
    cases isNext.symm.trans isTwo
    exact ⟨last, isLast, name, one, nickname, ways, foundLast, foundNext, alone⟩
  · rintro ⟨last, isLast, follows⟩
    cases stands with
    | same found =>
        obtain rfl : id = last := Option.some.inj isLast
        obtain ⟨_, _, _, _, foundLast, _⟩ := follows
        rw [found] at foundLast
        cases foundLast
        rfl
    | chain chain =>
        obtain ⟨isNext, isOpen⟩ := chain.isOpen readable isLast follows
        rw [lastResort?]
        dsimp only
        rw [if_pos isOpen]
        exact isNext

namespace Divided

/-- A node that is no choice stands for itself. -/
theorem parts_eq_singleton (divided : Divided graph references tests joined parts)
    (found : joined.get? id = some node) (plain : ¬ IsChoice joined id) :
    parts id = [id] ∧ graph.get? id = some node := by
  have stands := divided.stands id node found
  generalize parts id = listed at stands
  cases stands with
  | same foundBefore => exact ⟨rfl, foundBefore⟩
  | chain chain => exact absurd ⟨_, _, found⟩ plain

/-- A node with further parts is a choice. -/
theorem isChoice_of_mem_tail (divided : Divided graph references tests joined parts) (stored : id ∈ joined.ids)
    (member : key ∈ (parts id).tail) : IsChoice joined id := by
  by_contra plain
  obtain ⟨node, found⟩ := Graph.mem_ids_iff.mp stored
  rw [(divided.parts_eq_singleton found plain).1] at member
  cases member

/-- A decision that is stored after the joining is a decision or a choice there. -/
theorem isDecision_or_isChoice (divided : Divided graph references tests joined parts) (stored : id ∈ joined.ids)
    (decision : IsDecision graph id) : IsDecision joined id ∨ IsChoice joined id := by
  by_cases choice : IsChoice joined id
  · exact .inr choice
  · obtain ⟨node, found⟩ := Graph.mem_ids_iff.mp stored
    obtain ⟨nickname, children, foundBefore⟩ := decision
    have same := (divided.parts_eq_singleton found choice).2
    rw [foundBefore] at same
    cases same
    exact .inl ⟨nickname, children, found⟩

/-- Every node of the graph is a part of a stored node. -/
theorem exists_owner (divided : Divided graph references tests joined parts) (stored : key ∈ graph.ids) :
    ∃ owner ∈ joined.ids, key = owner ∨ key ∈ (parts owner).tail := by
  obtain ⟨owner, kept, member⟩ := List.mem_flatMap.mp (divided.whole.mem_iff.mpr stored)
  rw [divided.parts_eq_cons kept] at member
  exact ⟨owner, kept, List.mem_cons.mp member⟩

theorem nodup_parts (divided : Divided graph references tests joined parts) (stored : id ∈ joined.ids) :
    (parts id).Nodup :=
  (List.nodup_flatMap.mp (divided.whole.nodup_iff.mpr graph.nodup_ids)).1 id stored

/-- A node is a part of one stored node only. -/
theorem owner_eq (divided : Divided graph references tests joined parts) (stored : first ∈ joined.ids)
    (storedToo : second ∈ joined.ids) (member : key ∈ parts first) (memberToo : key ∈ parts second) :
    first = second := by
  by_contra different
  have disjoint := (List.nodup_flatMap.mp (divided.whole.nodup_iff.mpr graph.nodup_ids)).2
  have symmetric : Std.Symm (Function.onFun List.Disjoint parts) :=
    ⟨fun _ _ apart _ inSecond inFirst => apart inFirst inSecond⟩
  exact disjoint.forall stored storedToo different member memberToo

/-- A decision that can be joined to a node stands behind its last part. -/
theorem follows_of_joinable? (divided : Divided graph references tests joined parts)
    (readable : Readable graph groups references tests)
    (found : joinable? references joined id = some (node, next, nextNode)) :
    IsDecision joined next ∧ ∃ last, (parts id).getLast? = some last ∧ Follows graph references last next := by
  obtain ⟨foundId, resort, _⟩ := joinable?_eq_some_iff.mp found
  obtain ⟨joining, _⟩ := divided.joining readable found
  obtain ⟨nickname, one, two, rfl⟩ := joining.decision
  refine ⟨⟨_, _, joining.foundNext⟩, ?_⟩
  exact ((divided.stands id node foundId).lastResort?_eq_some_iff readable ⟨_, _, joining.foundBefore⟩
    joining.alone).mp resort

end Divided

/-! ## One joining -/

theorem isChoice_join_iff (found : joinable? references joined id = some (node, next, nextNode)) :
    IsChoice (join tests joined id node next nextNode) key ↔ key = id ∨ IsChoice joined key := by
  obtain ⟨_, _, foundNext, _, _, isDecision⟩ := joinable?_eq_some_iff.mp found
  rw [IsChoice, get?_join]
  by_cases isId : id = key
  · rw [if_pos isId]
    exact ⟨fun _ => .inl isId.symm, fun _ => ⟨_, _, rfl⟩⟩
  rw [if_neg isId, or_iff_right (Ne.symm isId)]
  split
  · rename_i isNext
    subst isNext
    constructor
    · rintro ⟨_, _, missing⟩
      cases missing
    · rintro ⟨_, _, foundChoice⟩
      rw [foundNext] at foundChoice
      cases foundChoice
      cases isDecision
  · rfl

theorem IsDecision.of_join (decision : IsDecision (join tests joined id node next nextNode) key) :
    IsDecision joined key ∧ key ≠ id := by
  obtain ⟨nickname, children, foundKey⟩ := decision
  obtain ⟨foundBefore, notId⟩ := get?_of_join_decision foundKey
  exact ⟨⟨nickname, children, foundBefore⟩, notId⟩

/-- Joining gives no other node a decision to take in, since it makes no new decision. -/
theorem joinable?_join_eq_none (settled : joinable? references joined key = none) (different : key ≠ id) :
    joinable? references (join tests joined id node next nextNode) key = none := by
  rw [Option.eq_none_iff_forall_ne_some]
  rintro ⟨keyNode, last, lastNode⟩ foundKey
  obtain ⟨storedKey, resort, storedLast, notKey, alone, isDecision⟩ := joinable?_eq_some_iff.mp foundKey
  rw [get?_join, if_neg different.symm] at storedKey
  rw [get?_join] at storedLast
  split at storedKey
  · cases storedKey
  · split at storedLast
    · cases storedLast
      cases isDecision
    · split at storedLast
      · cases storedLast
      · have stillFound : joinable? references joined key = some (keyNode, last, lastNode) :=
          joinable?_eq_some_iff.mpr ⟨storedKey, resort, storedLast, notKey, alone, isDecision⟩
        rw [settled] at stillFound
        cases stillFound

end MissionGraph.Outline
