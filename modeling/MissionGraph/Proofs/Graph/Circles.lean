import MissionGraph.Proofs.Graph.Simplification

/-!
# Simplifying graphs with circles

In a graph with circles simplifying can leave children behind that are not stored. A circle of forwarding
nodes is taken away as a whole, with nothing in its place. The node that takes the place of the entry keeps
its own children, so that a reference to itself leads to the number that it had before. These are the only
two ways: if the entry is stored and no child, and all children are stored, then simplifying keeps this
exactly if neither of the two occurs.
-/

namespace MissionGraph.Graph

open Relation

variable {graph result : Graph} {place : NodeId → NodeId} {id key child : NodeId} {node childNode : Node}

/-- The entry is stored and is no child, and all children are stored. -/
structure Headed (graph : Graph) : Prop where
  entry : ∃ node, graph.get? entry = some node
  closed : graph.Closed
  top : ∀ id, ¬ graph.Child id Graph.entry

/-- Forwarding from the first number ends at the second one, where the entry does not forward. -/
def EndsAt (graph : Graph) (id key : NodeId) : Prop :=
  ReflTransGen graph.Skips id key ∧ graph.skip? key = none

/-- Forwarding from every reached node ends, and no child of the node that takes the place of the entry
forwards to that node. -/
structure Settles (graph : Graph) : Prop where
  ends : ∀ id, graph.Reaches entry id → ∃ key, graph.EndsAt id key
  apart : ∀ first head last, graph.ForwardsTo entry first → graph.EndsAt first head → graph.Child head last →
    ¬ graph.EndsAt last head

/-- A graph without cycles settles. -/
theorem settles_of_acyclic (acyclic : graph.Acyclic) : graph.Settles where
  ends := by
    obtain ⟨place, flattening⟩ := exists_flattening graph
    intro id _
    refine ⟨place id, flattening.path id, ?_⟩
    rw [flattening.place_eq_resolve acyclic]
    exact skip?_resolve acyclic id
  apart := fun _ head last _ _ edge back => acyclic head (.head' edge (reaches_of_skips back.1))

/-- Everything that the entry reaches is stored. -/
def Whole (graph : Graph) : Prop :=
  ∀ id, graph.Reaches entry id → ∃ node, graph.get? id = some node

/-- What is left of a graph has an entry and all children exactly if nothing that is reached is missing. -/
theorem closed_cull_iff :
    ((∃ node, (graph.cull entry).get? entry = some node) ∧ (graph.cull entry).Closed) ↔ graph.Whole := by
  constructor
  · rintro ⟨⟨node, found⟩, closed⟩ id path
    rcases ReflTransGen.cases_tail path with same | ⟨parent, reached, edge⟩
    · exact same ▸ ⟨node, (get?_of_get?_cull found).2⟩
    · obtain ⟨parentNode, foundParent, member⟩ := child_iff.mp edge
      have still : (graph.cull entry).Child parent id :=
        child_of_get? ((get?_cull_of_reaches reached).trans foundParent) member
      obtain ⟨last, foundLast⟩ := closed parent id still
      exact ⟨last, (get?_of_get?_cull foundLast).2⟩
  · intro whole
    have stored {id : NodeId} (path : graph.Reaches entry id) : ∃ node, (graph.cull entry).get? id = some node := by
      rw [get?_cull_of_reaches path]
      exact whole id path
    refine ⟨stored .refl, fun parent child edge => ?_⟩
    obtain ⟨reached, edgeBefore⟩ := child_cull edge
    exact stored (reached.tail edgeBefore)

/-! ## Flattening -/

namespace Flattening

theorem place_eq_of_endsAt (flattening : Flattening graph result place) (ends : graph.EndsAt id key) :
    place id = key := by
  obtain ⟨path, stays⟩ := ends
  induction path using ReflTransGen.head_induction_on with
  | refl => exact flattening.place_eq stays
  | head skips _ ih => exact (flattening.next _ _ skips).trans ih

/-- The entry forwards as before, to where forwarding leads from its child. -/
theorem forwardsTo_entry_iff (flattening : Flattening graph result place) :
    result.ForwardsTo entry key ↔ ∃ first, graph.ForwardsTo entry first ∧ place first = key := by
  unfold ForwardsTo
  rw [flattening.kept entry (if_pos rfl)]
  constructor
  · rintro ⟨after, found, forwards⟩
    obtain ⟨before, foundBefore, rfl⟩ := Option.map_eq_some_iff.mp found
    rw [Node.forwardsTo?_map] at forwards
    obtain ⟨first, forwardsBefore, same⟩ := Option.map_eq_some_iff.mp forwards
    exact ⟨first, ⟨before, foundBefore, forwardsBefore⟩, same⟩
  · rintro ⟨first, ⟨before, foundBefore, forwards⟩, rfl⟩
    refine ⟨_, by rw [foundBefore]; rfl, ?_⟩
    rw [Node.forwardsTo?_map]
    exact congrArg (Option.map place) forwards

/-- The numbers that are reached afterwards are those that replace numbers reached before. -/
theorem reaches_iff (flattening : Flattening graph result place) :
    result.Reaches entry key ↔ ∃ id, graph.Reaches entry id ∧ place id = key := by
  constructor
  · intro path
    induction path with
    | refl => exact ⟨entry, .refl, flattening.place_entry⟩
    | @tail parent last _ edge ih =>
        obtain ⟨before, reached, rfl⟩ := ih
        obtain ⟨_, old, edgeBefore, rfl⟩ := flattening.child_iff.mp edge
        exact ⟨old, (reached.trans (reaches_of_skips (flattening.path before))).tail edgeBefore, rfl⟩
  · rintro ⟨id, path, rfl⟩
    induction path with
    | refl => exact flattening.place_entry.symm ▸ .refl
    | @tail parent last _ edge ih =>
        cases skips : graph.skip? parent with
        | none =>
            rw [flattening.place_eq skips] at ih
            exact ih.tail (flattening.child_iff.mpr ⟨skips, last, edge, rfl⟩)
        | some only =>
            -- a forwarding node leads nowhere else, and both have the same number afterwards
            obtain ⟨_, before, found, forwards⟩ := skips_iff.mp skips
            obtain ⟨_, _, _, childrenEq⟩ := Node.forwardsTo?_eq_some_iff.mp forwards
            rw [Child, children_of_get? found, childrenEq, List.mem_singleton] at edge
            rwa [edge, ← flattening.next parent only skips]

/-- The number of a stored node is replaced by that of a stored one exactly if forwarding from it ends. -/
theorem stored_iff (flattening : Flattening graph result place) (closed : graph.Closed)
    (stored : ∃ node, graph.get? id = some node) :
    (∃ node, result.get? (place id) = some node) ↔ ∃ key, graph.EndsAt id key := by
  constructor
  · rintro ⟨after, found⟩
    exact ⟨place id, flattening.path id, flattening.stays_of_get? found⟩
  · rintro ⟨key, ends⟩
    rw [flattening.place_eq_of_endsAt ends, flattening.kept key ends.2]
    obtain ⟨node, found⟩ := stored_of_skips closed ends.1 stored
    exact ⟨_, by rw [found]; rfl⟩

/-- Nothing that is reached afterwards is missing exactly if forwarding from what was reached ends. -/
theorem whole_iff (flattening : Flattening graph result place) (headed : graph.Headed) :
    result.Whole ↔ ∀ id, graph.Reaches entry id → ∃ key, graph.EndsAt id key := by
  have stored (id : NodeId) (path : graph.Reaches entry id) : ∃ node, graph.get? id = some node := by
    rcases ReflTransGen.cases_tail path with same | ⟨parent, _, edge⟩
    · exact same ▸ headed.entry
    · exact headed.closed parent id edge
  constructor
  · intro whole id path
    exact (flattening.stored_iff headed.closed (stored id path)).mp (whole _ (flattening.reaches_iff.mpr ⟨id, path, rfl⟩))
  · intro ends key path
    obtain ⟨id, reached, rfl⟩ := flattening.reaches_iff.mp path
    exact (flattening.stored_iff headed.closed (stored id reached)).mpr (ends id reached)

theorem not_child_entry (flattening : Flattening graph result place) (headed : graph.Headed) (id : NodeId) :
    ¬ result.Child id entry := by
  intro edge
  obtain ⟨_, old, edgeBefore, isEntry⟩ := flattening.child_iff.mp edge
  rcases ReflTransGen.cases_tail (flattening.path old) with same | ⟨last, _, skips⟩
  · exact headed.top id (isEntry ▸ same.symm ▸ edgeBefore)
  · exact headed.top last (isEntry ▸ Skips.isChild skips)

end Flattening

/-! ## Promoting -/

/-- What was reached is reached under its new number, since the child that takes the place of the entry keeps what
it leads to. -/
theorem reaches_promoted (forwards : graph.ForwardsTo entry child) (different : child ≠ entry)
    (found : graph.get? child = some childNode) (path : graph.Reaches entry id) :
    ((graph.remove entry).rename child entry).Reaches entry (bypass child entry id) := by
  induction path with
  | refl =>
      rw [bypass, if_neg (Ne.symm different)]
      exact .refl
  | @tail parent last _ edge ih =>
      obtain ⟨parentNode, foundParent, member⟩ := child_iff.mp edge
      by_cases isEntry : parent = entry
      · -- the entry leads to nothing but the child
        subst isEntry
        obtain ⟨before, foundEntry, isForwarding⟩ := forwards
        obtain ⟨_, _, _, childrenEq⟩ := Node.forwardsTo?_eq_some_iff.mp isForwarding
        cases foundEntry.symm.trans foundParent
        rw [childrenEq, List.mem_singleton] at member
        rw [member, bypass, if_pos rfl]
        exact .refl
      by_cases isLast : last = child
      · rw [isLast, bypass, if_pos rfl]
        exact .refl
      rw [show bypass child entry last = last from if_neg isLast]
      by_cases isChild : parent = child
      · subst isChild
        cases found.symm.trans foundParent
        refine .single (child_of_get? ?_ member)
        rw [get?_promoted different found, if_pos rfl]
      · rw [bypass, if_neg isChild] at ih
        have foundNew : ((graph.remove entry).rename child entry).get? parent =
            some ⟨parentNode.content, parentNode.children.map (bypass child entry)⟩ := by
          rw [get?_promoted different found, if_neg (Ne.symm isEntry), if_neg (Ne.symm isChild), foundParent]
          rfl
        exact ih.tail (child_of_get? foundNew (List.mem_map.mpr ⟨last, member, if_neg isLast⟩))

section Promoted

variable (top : ∀ id, ¬ graph.Child id entry) (forwards : graph.ForwardsTo entry child)
  (found : graph.get? child = some childNode)

include top forwards in
theorem ne_entry_of_forwardsTo : child ≠ entry := by
  rintro rfl
  exact top _ forwards.isChild

include top forwards found

/-- The child that takes the place of the entry is not stored under its old number. -/
theorem not_child_self_of_whole (whole : ((graph.remove entry).rename child entry).Whole) :
    ¬ graph.Child child child := by
  have different := ne_entry_of_forwardsTo top forwards
  intro edge
  rw [Child, children_of_get? found] at edge
  have promoted : ((graph.remove entry).rename child entry).get? entry = some childNode := by
    rw [get?_promoted different found, if_pos rfl]
  obtain ⟨node, missing⟩ := whole child (.single (child_of_get? promoted edge))
  rw [get?_promoted different found, if_neg (fun same => different same.symm), if_pos rfl] at missing
  cases missing

/-- What is stored under a number is stored under its new number. -/
theorem stored_promoted_iff (other : id ≠ entry) :
    (∃ node, ((graph.remove entry).rename child entry).get? (bypass child entry id) = some node) ↔
      ∃ node, graph.get? id = some node := by
  have different := ne_entry_of_forwardsTo top forwards
  by_cases isChild : id = child
  · subst isChild
    rw [bypass, if_pos rfl, get?_promoted different found, if_pos rfl, found]
  · rw [bypass, if_neg isChild, get?_promoted different found, if_neg (fun same => other same.symm),
      if_neg (fun same => isChild same.symm)]
    cases graph.get? id <;> simp

/-- The numbers that are reached after promoting are the new numbers of those reached before. -/
theorem reaches_promoted_iff (apart : ¬ graph.Child child child) :
    ((graph.remove entry).rename child entry).Reaches entry key ↔
      ∃ id, id ≠ entry ∧ graph.Reaches entry id ∧ bypass child entry id = key := by
  have different := ne_entry_of_forwardsTo top forwards
  have notEntry {parent last : NodeId} (edge : graph.Child parent last) : last ≠ entry := by
    rintro rfl
    exact top parent edge
  constructor
  · intro path
    induction path with
    | refl => exact ⟨child, different, .single forwards.isChild, if_pos rfl⟩
    | @tail parent last _ edge ih =>
        rcases child_promoted_cases different found edge with ⟨_, below⟩ | ⟨parentOther, old, edgeBefore, rfl⟩
        · refine ⟨last, notEntry below, (ReflTransGen.single forwards.isChild).tail below, if_neg ?_⟩
          rintro rfl
          exact apart below
        · obtain ⟨before, _, reached, same⟩ := ih
          have unmoved : before = parent := by
            unfold bypass at same
            split at same
            · exact absurd same.symm parentOther
            · exact same
          exact ⟨old, notEntry edgeBefore, (unmoved ▸ reached).tail edgeBefore, rfl⟩
  · rintro ⟨id, _, path, rfl⟩
    exact reaches_promoted forwards different found path

theorem whole_promoted_iff :
    ((graph.remove entry).rename child entry).Whole ↔ graph.Whole ∧ ¬ graph.Child child child := by
  constructor
  · intro whole
    have apart := not_child_self_of_whole top forwards found whole
    refine ⟨fun id path => ?_, apart⟩
    by_cases isEntry : id = entry
    · obtain ⟨node, foundEntry, _⟩ := forwards
      exact ⟨node, isEntry ▸ foundEntry⟩
    · refine (stored_promoted_iff top forwards found isEntry).mp (whole _ ?_)
      exact (reaches_promoted_iff top forwards found apart).mpr ⟨id, isEntry, path, rfl⟩
  · rintro ⟨whole, apart⟩ key path
    obtain ⟨id, other, reached, rfl⟩ := (reaches_promoted_iff top forwards found apart).mp path
    exact (stored_promoted_iff top forwards found other).mpr (whole id reached)

end Promoted

theorem promote_of_not_forwardsTo (stops : ∀ child, ¬ graph.ForwardsTo entry child) : graph.promote = graph := by
  rw [promote]
  split
  · rfl
  · rename_i child forwards
    exact absurd (Option.bind_eq_some_iff.mp forwards) (stops child)

theorem promote_of_forwardsTo (forwards : graph.ForwardsTo entry child) :
    graph.promote = ((graph.remove entry).rename child entry).promote := by
  obtain ⟨node, found, isForwarding⟩ := forwards
  rw [promote]
  split
  · rename_i stops
    rw [found, Option.bind_some, isForwarding] at stops
    cases stops
  · rename_i other forwards
    rw [found, Option.bind_some, isForwarding] at forwards
    cases forwards
    rfl

/-- Promoting in a graph where only the entry may forward misses nothing exactly if the child that takes its
place does not refer to itself. -/
theorem whole_promote_iff (flat : graph.Flat) (top : ∀ id, ¬ graph.Child id entry) :
    graph.promote.Whole ↔ graph.Whole ∧ ∀ head, graph.ForwardsTo entry head → ¬ graph.Child head head := by
  by_cases stops : ∀ child, ¬ graph.ForwardsTo entry child
  · rw [promote_of_not_forwardsTo stops]
    exact (and_iff_left fun head forwards => absurd forwards (stops head)).symm
  obtain ⟨child, forwards⟩ := not_forall_not.mp stops
  have different := ne_entry_of_forwardsTo top forwards
  have onlyChild : (∀ head, graph.ForwardsTo entry head → ¬ graph.Child head head) ↔ ¬ graph.Child child child :=
    ⟨fun apart => apart child forwards, fun apart head again => again.functional forwards ▸ apart⟩
  rw [promote_of_forwardsTo forwards, onlyChild]
  cases found : graph.get? child with
  | some childNode =>
      rw [promote_of_not_forwardsTo, whole_promoted_iff top forwards found]
      rintro next ⟨node, foundEntry, isForwarding⟩
      rw [get?_promoted different found, if_pos rfl] at foundEntry
      cases foundEntry
      cases (flat child childNode different found).symm.trans isForwarding
  | none =>
      -- there is no node to take the place of the entry
      have unmoved : (graph.remove entry).rename child entry = graph.remove entry := by
        refine rename_of_missing ?_
        rw [get?_remove, if_neg (fun same => different same.symm), found]
      have gone : (graph.remove entry).get? entry = none := by
        rw [get?_remove, if_pos rfl]
      rw [unmoved, promote_of_not_forwardsTo]
      · refine iff_of_false (fun whole => ?_) fun whole => ?_
        · obtain ⟨node, foundEntry⟩ := whole entry .refl
          cases gone.symm.trans foundEntry
        · obtain ⟨node, foundChild⟩ := whole.1 child (.single forwards.isChild)
          cases found.symm.trans foundChild
      · rintro next ⟨node, foundEntry, _⟩
        cases gone.symm.trans foundEntry

/-- Simplifying a headed graph keeps the entry and all children stored exactly if the graph settles. -/
theorem closed_simplify_iff (headed : graph.Headed) :
    ((∃ node, graph.simplify.get? entry = some node) ∧ graph.simplify.Closed) ↔ graph.Settles := by
  obtain ⟨place, flattening⟩ := exists_flattening graph
  have selfApart : (∀ head, graph.flatten.ForwardsTo entry head → ¬ graph.flatten.Child head head) ↔
      ∀ first head last, graph.ForwardsTo entry first → graph.EndsAt first head → graph.Child head last →
        ¬ graph.EndsAt last head := by
    constructor
    · intro apart first head last forwards ends edge back
      refine apart head (flattening.forwardsTo_entry_iff.mpr ⟨first, forwards, ?_⟩) ?_
      · exact flattening.place_eq_of_endsAt ends
      · exact flattening.child_iff.mpr ⟨ends.2, last, edge, flattening.place_eq_of_endsAt back⟩
    · intro apart head forwards edge
      obtain ⟨first, forwardsBefore, isHead⟩ := flattening.forwardsTo_entry_iff.mp forwards
      obtain ⟨stays, last, edgeBefore, isBack⟩ := flattening.child_iff.mp edge
      exact apart first head last forwardsBefore ⟨isHead ▸ flattening.path first, stays⟩ edgeBefore
        ⟨isBack ▸ flattening.path last, stays⟩
  rw [simplify, closed_cull_iff, whole_promote_iff flattening.flat (flattening.not_child_entry headed), selfApart,
    flattening.whole_iff headed]
  constructor
  · rintro ⟨ends, apart⟩
    exact ⟨ends, apart⟩
  · rintro ⟨ends, apart⟩
    exact ⟨ends, apart⟩

end MissionGraph.Graph
