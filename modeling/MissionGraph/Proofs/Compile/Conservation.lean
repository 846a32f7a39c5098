import Mathlib.Algebra.BigOperators.Group.List.Basic
import MissionGraph.Proofs.Build.Compiled
import MissionGraph.Proofs.Build.Holdings
import MissionGraph.Proofs.Build.Reached

/-!
# No field is lost

The nodes of a compiled graph hold the values that the script contributes, neither more nor fewer: those of
the fields and of the tests for groups among the statements that declare nothing and in the bodies of all
subs that are called from them. A body counts once, however often its sub is called.
-/

namespace MissionGraph

open Mission (Data Held)
open Script (Called Live Program Statement allValues bodiesOf declaredSub? mains scopeOf subsOf)

/-- What the statements that declare nothing and the bodies of all called subs contribute. -/
def Script.contributed (script : Program) : List Held :=
  allValues (scopeOf script).groups (Statement.walkBody (mains script)) ++
    ((subsOf script).filter fun sub => Called script sub.2.1).flatMap fun sub =>
      allValues (scopeOf script).groups (Statement.walkBody sub.2.2)

/-- The values of all nodes. -/
def Graph.held (graph : Graph) : List Held :=
  graph.toList.flatMap fun stored => stored.2.content.held

/-! ## Nodes that forward -/

theorem eq_none_of_any_eq_false {α : Type} {value : Option α} {test : α → Bool} (all : ∀ held ∈ value, test held = true)
    (fails : value.any test = false) : value = none := by
  cases value with
  | none => rfl
  | some held => exact absurd (all held rfl) (Bool.not_eq_true _ ▸ fails)

/-- Groups and zones that are written down list something, so empty data holds no value at all. -/
theorem Mission.Data.held_of_isEmpty {data : Data} (formed : data.WellFormed) (isEmpty : data.isEmpty = true) :
    data.held = [] := by
  have listed {names : List String} (list : NameList names) : (!names.isEmpty) = true := by
    rw [Bool.not_eq_true', List.isEmpty_eq_false_iff]
    exact list.1
  simp only [Data.isEmpty, hasFields, Bool.and_eq_true, Bool.not_eq_true', Bool.or_eq_false_iff,
    Option.isSome_eq_false_iff, Option.isNone_iff_eq_none, Bool.not_eq_false', List.isEmpty_iff] at isEmpty
  obtain ⟨_, ⟨⟨⟨⟨⟨⟨⟨⟨⟨weight, offered⟩, hostile⟩, zones⟩, difficulty⟩, failure⟩, reward⟩, objectives⟩, offers⟩, comms⟩⟩ :=
    isEmpty
  have offeredNone := eq_none_of_any_eq_false (fun factions isHeld => listed (formed.offerGroup factions isHeld)) offered
  have hostileNone := eq_none_of_any_eq_false (fun factions isHeld => listed (formed.hostileGroup factions isHeld)) hostile
  have zonesNone := eq_none_of_any_eq_false (fun names isHeld => listed (formed.zones names isHeld)) zones
  rw [held, weight, offeredNone, hostileNone, zonesNone, difficulty, failure, reward, objectives, offers, comms]
  rfl

namespace Graph

variable {graph : Graph}

theorem heldAt_eq_zero {id : NodeId} (missing : graph.get? id = none) : graph.heldAt id = 0 := by
  rw [heldAt, missing]
  rfl

theorem coe_held (graph : Graph) : (graph.held : Multiset Held) = ∑ id ∈ graph.ids.toFinset, graph.heldAt id := by
  have keys : graph.ids = graph.toList.map Prod.fst := graph.map_fst_toList.symm
  have each : graph.toList.map (graph.heldAt ∘ Prod.fst) =
      graph.toList.map fun stored => (stored.2.content.held : Multiset Held) :=
    List.map_congr_left fun stored listed => heldAt_of_get? (mem_toList_iff.mp listed)
  rw [List.sum_toFinset _ graph.nodup_ids, keys, List.map_map, each, held, ← Multiset.coe_bind]
  rfl

theorem heldAt_of_forwards {id child : NodeId} {node : Node} (found : graph.get? id = some node)
    (formed : node.content.WellFormed) (forwards : node.forwardsTo? = some child) : graph.heldAt id = 0 := by
  obtain ⟨data, content, isEmpty, _⟩ := Node.forwardsTo?_eq_some_iff.mp forwards
  rw [content] at formed
  rw [heldAt_of_get? found, content, Content.held, Data.held_of_isEmpty formed isEmpty]
  rfl

/-- The nodes of the simplified graph are the kept nodes, each under its new number. -/
theorem ids_simplify (proper : graph.Proper) {range : Finset NodeId}
    (stored : ∀ id node, graph.get? id = some node → id ∈ range) [DecidablePred graph.Kept] {place : NodeId → NodeId}
    (folds : Folds graph graph.simplify place) :
    graph.simplify.ids.toFinset = (range.filter graph.Kept).image place := by
  ext id
  rw [List.mem_toFinset, mem_ids_iff, Finset.mem_image]
  constructor
  · rintro ⟨node, found⟩
    obtain ⟨key, kept, same⟩ := folds.origin proper (folded_simplify proper) (reaches_simplify found)
    obtain ⟨before, foundBefore, _⟩ := kept.2
    exact ⟨key, Finset.mem_filter.mpr ⟨stored key before foundBefore, kept⟩, same⟩
  · rintro ⟨key, member, rfl⟩
    obtain ⟨reached, node, found, stays⟩ := (Finset.mem_filter.mp member).2
    exact ⟨_, folds.get?_of_kept reached found stays⟩

/-- Simplifying a graph keeps the values of the nodes that the entry reaches. -/
theorem coe_held_simplify (proper : graph.Proper)
    (formed : ∀ id node, graph.get? id = some node → node.content.WellFormed) {range : Finset NodeId}
    (stored : ∀ id node, graph.get? id = some node → id ∈ range) [DecidablePred (graph.Reaches entry)] :
    (graph.simplify.held : Multiset Held) = ∑ id ∈ range with graph.Reaches entry id, graph.heldAt id := by
  classical
  obtain ⟨place, folds⟩ := exists_folds_simplify proper
  have injective : Set.InjOn place (range.filter graph.Kept) := by
    intro one first two second same
    exact folds.injective one two (Finset.mem_filter.mp first).2 (Finset.mem_filter.mp second).2 same
  have moved : ∀ id ∈ range.filter graph.Kept, graph.simplify.heldAt (place id) = graph.heldAt id := by
    intro id member
    obtain ⟨reached, node, found, stays⟩ := (Finset.mem_filter.mp member).2
    rw [heldAt_of_get? (folds.get?_of_kept reached found stays), heldAt_of_get? found]
  rw [coe_held, ids_simplify proper stored folds, Finset.sum_image injective, Finset.sum_congr rfl moved]
  refine Finset.sum_subset (fun id member => ?_) fun id member notKept => ?_
  · obtain ⟨inRange, kept⟩ := Finset.mem_filter.mp member
    exact Finset.mem_filter.mpr ⟨inRange, kept.1⟩
  · -- what is reached and not kept forwards, so it holds nothing
    obtain ⟨inRange, reached⟩ := Finset.mem_filter.mp member
    cases found : graph.get? id with
    | none => exact heldAt_eq_zero found
    | some node =>
        cases forwards : node.forwardsTo? with
        | none => exact absurd (Finset.mem_filter.mpr ⟨inRange, reached, node, found, forwards⟩) notKept
        | some child => exact heldAt_of_forwards found (formed id node found) forwards

end Graph

/-! ## Bodies -/

/-- What comes of the elements that pass a test, as a sum over all elements. -/
theorem coe_flatMap_filter {α β : Type} (values : List α) (test : α → Prop) [DecidablePred test] (read : α → List β) :
    ((values.filter fun value => test value).flatMap read : Multiset β) =
      (values.map fun value => if test value then (read value : Multiset β) else 0).sum := by
  induction values with
  | nil => rfl
  | cons value rest ih =>
      rw [List.map_cons, List.sum_cons, ← ih, List.filter_cons]
      by_cases passes : test value
      · simp only [passes, decide_true, if_true, List.flatMap_cons, Multiset.coe_add]
      · simp only [passes, decide_false, if_false, zero_add, Bool.false_eq_true]

/-- The nodes of the bodies that pass a test hold what these bodies contribute. -/
theorem Owned.held {α : Type} {graph : Graph} {scope : Scope} {owner : Nat → NodeId}
    {bodies : List (NodeId × List (Statement α))} {first last : Nat} (owned : Owned graph scope owner bodies first last)
    (test : NodeId → Prop) [DecidablePred test] :
    (bodies.map fun body => if test body.1 then graph.heldAt body.1 else 0).sum +
        ∑ id ∈ Finset.Ico first last, (if test (owner id) then graph.heldAt id else 0) =
      (bodies.map fun body =>
        if test body.1 then (allValues scope.groups (Statement.walkBody body.2) : Multiset Held) else 0).sum := by
  induction owned with
  | nil => exact (congrArg _ (Finset.sum_eq_zero (by simp))).trans (add_zero _)
  | @cons root body bodies first middle last head own tail ih =>
      have inside : ∑ id ∈ Finset.Ico first middle, (if test (owner id) then graph.heldAt id else 0) =
          if test root then graph.heldFrom first middle else 0 := by
        have owners : ∀ id ∈ Finset.Ico first middle, (if test (owner id) then graph.heldAt id else 0) =
            if test root then graph.heldAt id else 0 := by
          intro id member
          rw [own id (Finset.mem_Ico.mp member).1 (Finset.mem_Ico.mp member).2]
        rw [Finset.sum_congr rfl owners]
        split
        · rfl
        · exact Finset.sum_const_zero
      have whole : graph.heldAt root + graph.heldFrom first middle = allValues scope.groups (Statement.walkBody body) :=
        head.held.trans (zero_add _)
      rw [← Finset.sum_Ico_consecutive _ head.le.1 tail.layouts.le, inside, List.map_cons, List.map_cons, List.sum_cons,
        List.sum_cons, ← ih, ← whole]
      split
      · abel
      · abel

namespace Script

variable {script : Program}

theorem live_iff_called {sub : NodeId × String × Program} (declared : sub ∈ subsOf script) :
    Live script sub.1 ↔ Called script sub.2.1 := by
  obtain ⟨id, name, body⟩ := sub
  have numbers : (subsOf script).map Prod.fst = List.range' (Graph.entry + 1) (subsOf script).length :=
    map_fst_subsFrom (Graph.entry + 1) script
  constructor
  · rintro (isEntry | ⟨other, otherBody, alsoDeclared, called⟩)
    · have listed : id ∈ (subsOf script).map Prod.fst := List.mem_map.mpr ⟨_, declared, rfl⟩
      rw [numbers, List.mem_range'_1] at listed
      exact absurd isEntry (Nat.ne_of_gt listed.1)
    · have different : ((subsOf script).map Prod.fst).Nodup := numbers ▸ List.nodup_range'
      cases List.inj_on_of_nodup_map different declared alsoDeclared rfl
      exact called
  · exact fun called => .inr ⟨name, body, declared, called⟩

/-- A sum over the nodes where bodies start is a sum over the bodies. -/
theorem sum_roots {β : Type} [AddCommMonoid β] (value : NodeId → β) :
    ∑ id ∈ Finset.Ico Graph.entry (Graph.entry + 1 + (subsOf script).length), value id =
      ((bodiesOf script).map fun body => value body.1).sum := by
  have interval : ((bodiesOf script).map Prod.fst).toFinset =
      Finset.Ico Graph.entry (Graph.entry + 1 + (subsOf script).length) := by
    ext root
    rw [List.mem_toFinset, mem_roots_iff, Finset.mem_Ico]
  rw [← interval, List.sum_toFinset _ (nodup_roots script), List.map_map]
  rfl

/-- The contributions of a script, as a sum over all of its bodies. -/
theorem coe_contributed [DecidablePred (Live script)] : (contributed script : Multiset Held) =
    ((bodiesOf script).map fun body =>
      if Live script body.1 then (allValues (scopeOf script).groups (Statement.walkBody body.2) : Multiset Held)
      else 0).sum := by
  have subs : ((subsOf script).map fun sub => if Called script sub.2.1 then
        (allValues (scopeOf script).groups (Statement.walkBody sub.2.2) : Multiset Held) else 0) =
      (subsOf script).map fun sub => if Live script sub.1 then
        (allValues (scopeOf script).groups (Statement.walkBody sub.2.2) : Multiset Held) else 0 :=
    List.map_congr_left fun sub declared => by simp only [live_iff_called declared]
  rw [contributed, ← Multiset.coe_add, coe_flatMap_filter (subsOf script) (fun sub => Called script sub.2.1), subs,
    bodiesOf, List.map_cons, List.sum_cons, if_pos (.inl rfl), List.map_map]
  rfl

end Script

namespace LaidOut

variable {script : Program} {raw : Graph}

/-- The nodes that the entry reaches hold what the script contributes. -/
theorem held_reached (laid : LaidOut script raw) (once : (script.filterMap declaredSub?).Nodup)
    [DecidablePred (raw.Reaches Graph.entry)] :
    ∑ id ∈ Finset.Ico Graph.entry raw.nextId with raw.Reaches Graph.entry id, raw.heldAt id =
      (Script.contributed script : Multiset Held) := by
  classical
  obtain ⟨owner, starts, owned, reached⟩ := laid.exists_owner once
  have byOwner : ∀ id ∈ Finset.Ico Graph.entry raw.nextId, (if raw.Reaches Graph.entry id then raw.heldAt id else 0) =
      if Live script (owner id) then raw.heldAt id else 0 := by
    intro id member
    simp only [reached id (Finset.mem_Ico.mp member).1 (Finset.mem_Ico.mp member).2]
  have roots : ((bodiesOf script).map fun body => if Live script (owner body.1) then raw.heldAt body.1 else 0) =
      (bodiesOf script).map fun body => if Live script body.1 then raw.heldAt body.1 else 0 :=
    List.map_congr_left fun body listed => by rw [starts body.1 (List.mem_map_of_mem listed)]
  rw [Finset.sum_filter, Finset.sum_congr rfl byOwner,
    ← Finset.sum_Ico_consecutive _ (Nat.le_trans (Nat.le_succ _) (Nat.le_add_right _ _)) laid.layouts.le,
    Script.sum_roots, roots, owned.held (Live script), Script.coe_contributed]

end LaidOut

/-- The nodes of a compiled graph hold exactly the values that the script contributes, each as often. -/
theorem held_perm_contributed {source : String} {script : Program} {graph : Graph}
    (parsed : Script.parse source = .ok script) (success : (compile source).result = .ok graph) :
    graph.held.Perm (Script.contributed script) := by
  classical
  obtain ⟨program, warnings, raw, alsoParsed, checked, built, rfl⟩ := compile_eq_ok_iff.mp success
  obtain rfl : program = script := Except.ok.inj (alsoParsed.symm.trans parsed)
  have facts := rawGraph_of_parse parsed checked built
  have once := (Script.checkDeclarations_eq_ok_iff.mp (Script.exists_check_eq_ok_iff.mp ⟨warnings, checked⟩).1).2
  have formed (id : NodeId) (node : Node) (found : raw.get? id = some node) : node.content.WellFormed :=
    facts.laidOut.forall_stored (invariant_wellFormed facts.wellFormed) found
  have stored (id : NodeId) (node : Node) (found : raw.get? id = some node) :
      id ∈ Finset.Ico Graph.entry raw.nextId :=
    Finset.mem_Ico.mpr (facts.laidOut.stored id node found)
  refine Multiset.coe_eq_coe.mp ?_
  rw [Graph.coe_held_simplify facts.proper formed stored, facts.laidOut.held_reached once]

/-- A script with a sub that is called twice and one that is never called. -/
def calledTwice : String :=
  "group A x; sub f weight 3; end sub g call f; weight 3; end sub h weight 9; end if group(A) call g; else call f; end"

/-- A sub that is called twice counts once, and one that is never called does not count. -/
theorem held_perm_contributed_called_twice : ∃ script graph, Script.parse calledTwice = .ok script ∧
    (compile calledTwice).result = .ok graph ∧ graph.held.Perm (Script.contributed script) ∧
      Script.contributed script = [.offerGroup ⟨["x"]⟩, .weight 3, .weight 3] := by
  have evaluated : (do
      let script ← (Script.parse calledTwice).toOption
      let _ ← (Script.checkDeclarations script).toOption
      let _ ← (Script.checkReferences script).toOption
      let _ ← (Builder.rawGraph script).toOption
      return (Script.contributed script, (script.filterMap declaredSub?).eraseDups,
        (Search.backEdge? (Script.callsOfSub script) Prod.snd ["f", "g", "h"]).isNone)) =
      some ([.offerGroup ⟨["x"]⟩, .weight 3, .weight 3], ["f", "g", "h"], true) := by
    decide +kernel
  obtain ⟨script, parsed, evaluated⟩ := Success.exists_of_toOption_bind evaluated
  obtain ⟨_, declarations, evaluated⟩ := Success.exists_of_toOption_bind evaluated
  obtain ⟨_, references, evaluated⟩ := Success.exists_of_toOption_bind evaluated
  obtain ⟨raw, built, evaluated⟩ := Success.exists_of_toOption_bind evaluated
  obtain ⟨values, evaluated⟩ := Prod.mk.inj (Option.some.inj evaluated)
  obtain ⟨names, noCircle⟩ := Prod.mk.inj evaluated
  -- The kernel does not compute the sorted list of the names, but they are in order already.
  have sorted : (script.filterMap declaredSub?).eraseDups.mergeSort = ["f", "g", "h"] := by
    rw [names]
    exact List.mergeSort_of_pairwise (by decide)
  have recursion : Script.checkRecursion script = .ok () := by
    rw [Script.checkRecursion_eq_ok_iff, sorted]
    exact Option.isNone_iff_eq_none.mp noCircle
  obtain ⟨warnings, checked⟩ := Script.exists_check_eq_ok_iff.mpr ⟨declarations, references, recursion⟩
  have success := compile_eq_ok_iff.mpr ⟨script, warnings, raw, parsed, checked, built, rfl⟩
  exact ⟨script, _, parsed, success, held_perm_contributed parsed success, values⟩

end MissionGraph
