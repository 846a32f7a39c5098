import MissionGraph.Proofs.Graph.Folding

/-!
# Where forwarding leads

Flattening takes forwarding nodes away one by one, in the order of their numbers, and every time it changes
references in the whole graph, those of other forwarding nodes among them. In the end every number has been
replaced by one that forwarding leads to from it, whatever the order was; in a graph without cycles this is
where forwarding ends.
-/

namespace MissionGraph.Graph

open Relation

variable {graph result : Graph} {place : NodeId → NodeId} {id child : NodeId} {node : Node}

/-- The node under the first number forwards to the second number. -/
def ForwardsTo (graph : Graph) (id child : NodeId) : Prop :=
  ∃ node, graph.get? id = some node ∧ node.forwardsTo? = some child

theorem ForwardsTo.functional {first second : NodeId} (one : graph.ForwardsTo id first)
    (other : graph.ForwardsTo id second) : first = second := by
  obtain ⟨node, found, forwards⟩ := one
  obtain ⟨again, foundAgain, forwardsAgain⟩ := other
  rw [found] at foundAgain
  cases foundAgain
  rw [forwards] at forwardsAgain
  exact Option.some.inj forwardsAgain

theorem ForwardsTo.isChild (forwards : graph.ForwardsTo id child) : graph.Child id child := by
  obtain ⟨node, found, isForwarding⟩ := forwards
  obtain ⟨_, _, _, childrenEq⟩ := Node.forwardsTo?_eq_some_iff.mp isForwarding
  exact child_of_get? found (childrenEq ▸ List.mem_singleton_self child)

/-- The number that a forwarding node other than the entry leads to. -/
def skip? (graph : Graph) (id : NodeId) : Option NodeId :=
  if id = entry then none else (graph.get? id).bind Node.forwardsTo?

/-- The first number is that of a forwarding node other than the entry, which leads to the second one. -/
def Skips (graph : Graph) (id child : NodeId) : Prop :=
  graph.skip? id = some child

theorem skips_iff : graph.Skips id child ↔ id ≠ entry ∧ graph.ForwardsTo id child := by
  unfold Skips skip? ForwardsTo
  split
  · rename_i isEntry
    exact iff_of_false (by intro impossible; cases impossible) fun other => other.1 isEntry
  · rename_i other
    rw [Option.bind_eq_some_iff, and_iff_right other]

theorem Skips.isChild (skips : graph.Skips id child) : graph.Child id child :=
  (skips_iff.mp skips).2.isChild

/-- What is skipped is reached. -/
theorem reaches_of_skips {first last : NodeId} (path : ReflTransGen graph.Skips first last) :
    graph.Reaches first last :=
  ReflTransGen.mono (fun _ _ skips => Skips.isChild skips) _ _ path

theorem stored_of_skips (closed : graph.Closed) {first last : NodeId} (path : ReflTransGen graph.Skips first last)
    (stored : ∃ node, graph.get? first = some node) : ∃ node, graph.get? last = some node := by
  rcases ReflTransGen.cases_tail path with same | ⟨parent, _, skips⟩
  · exact same ▸ stored
  · exact closed parent last (Skips.isChild skips)

/-- The node stays where it is when the graph is flattened: it is the entry, or it is not an empty data node
with exactly one child. -/
def Stays (id : NodeId) (node : Node) : Prop :=
  id = entry ∨ ∀ data child, node = ⟨.data data, [child]⟩ → data.isEmpty = false

theorem stays_iff (found : graph.get? id = some node) : Stays id node ↔ graph.skip? id = none := by
  rw [skip?, found]
  by_cases isEntry : id = entry
  · exact iff_of_true (.inl isEntry) (if_pos isEntry)
  rw [if_neg isEntry, Option.bind_some, Option.eq_none_iff_forall_ne_some, Stays, or_iff_right isEntry]
  constructor
  · intro full child forwards
    obtain ⟨data, contentEq, isEmpty, childrenEq⟩ := Node.forwardsTo?_eq_some_iff.mp forwards
    obtain ⟨content, children⟩ := node
    cases contentEq
    cases childrenEq
    cases isEmpty.symm.trans (full data child rfl)
  · rintro none_forwards data child rfl
    refine eq_false_of_ne_true fun isEmpty => ?_
    exact none_forwards child (Node.forwardsTo?_eq_some_iff.mpr ⟨data, rfl, isEmpty, rfl⟩)

/-! ## Flattening any graph -/

/-- No node but perhaps the entry forwards. -/
def Flat (graph : Graph) : Prop :=
  ∀ id node, id ≠ entry → graph.get? id = some node → node.forwardsTo? = none

/-- Flattening the first graph gives the second one: forwarding nodes other than the entry are gone, and in the
other nodes every child is replaced by a number that forwarding leads to from it. -/
structure Flattening (graph result : Graph) (place : NodeId → NodeId) : Prop where
  path : ∀ id, ReflTransGen graph.Skips id (place id)
  next : ∀ id child, graph.Skips id child → place id = place child
  skipped : ∀ id child, graph.Skips id child → result.get? id = none
  kept : ∀ id, graph.skip? id = none →
    result.get? id = (graph.get? id).map fun node => ⟨node.content, node.children.map place⟩

/-- After a node has been bypassed the other forwarding nodes still forward. -/
theorem skip?_replace (graph : Graph) (id child key : NodeId) :
    (graph.replace id child).skip? key =
      if id = key then none else (graph.skip? key).map (bypass id child) := by
  unfold skip?
  rw [get?_replace]
  split
  · split <;> rfl
  · split
    · rfl
    · cases graph.get? key with
      | none => rfl
      | some node => exact Node.forwardsTo?_map node.content node.children _

theorem reflTransGen_bypass (skips : graph.Skips id child) (key : NodeId) :
    ReflTransGen graph.Skips key (bypass id child key) := by
  unfold bypass
  split
  · rename_i same
    exact .single (same ▸ skips)
  · exact .refl

/-- Forwarding in a graph without one of its forwarding nodes is forwarding in the graph. -/
theorem reflTransGen_of_replace (skips : graph.Skips id child) {first last : NodeId}
    (path : ReflTransGen (graph.replace id child).Skips first last) : ReflTransGen graph.Skips first last := by
  induction path with
  | refl => exact .refl
  | @tail middle last _ step ih =>
      rw [Skips, skip?_replace] at step
      split at step
      · cases step
      · obtain ⟨old, skipsOld, rfl⟩ := Option.map_eq_some_iff.mp step
        exact (ih.tail skipsOld).trans (reflTransGen_bypass skips old)

namespace Flattening

/-- A graph in which nothing can be skipped is flattened already. -/
theorem refl (flat : ∀ id, graph.skip? id = none) : Flattening graph graph (fun key => key) where
  path := fun _ => .refl
  next := fun id _ skips => by cases (flat id).symm.trans skips
  skipped := fun id _ skips => by cases (flat id).symm.trans skips
  kept := by
    intro key _
    simp only [List.map_id']
    cases graph.get? key <;> rfl

/-- Flattening can begin with any forwarding node. -/
theorem bypass (skips : graph.Skips id child) (later : Flattening (graph.replace id child) result place) :
    Flattening graph result (place ∘ Graph.bypass id child) where
  path := fun key => (reflTransGen_bypass skips key).trans (reflTransGen_of_replace skips (later.path _))
  next := by
    intro key next skipsKey
    by_cases same : key = id
    · subst same
      cases skips.symm.trans skipsKey
      by_cases circle : child = key
      · rw [circle]
      · simp only [Function.comp_apply, Graph.bypass, if_pos, if_neg circle]
    · have skipsLater : (graph.replace id child).Skips key (Graph.bypass id child next) := by
        rw [Skips, skip?_replace, if_neg (fun equal => same equal.symm), skipsKey]
        rfl
      have sameLater := later.next _ _ skipsLater
      simpa only [Function.comp_apply, Graph.bypass, if_neg same] using sameLater
  skipped := by
    intro key next skipsKey
    by_cases same : id = key
    · rw [later.kept key (by rw [skip?_replace, if_pos same]), get?_replace, if_pos same]
      rfl
    · refine later.skipped key (Graph.bypass id child next) ?_
      rw [Skips, skip?_replace, if_neg same, skipsKey]
      rfl
  kept := by
    intro key stays
    have different : id ≠ key := by
      rintro rfl
      cases stays.symm.trans skips
    rw [later.kept key (by rw [skip?_replace, if_neg different, stays]; rfl), get?_replace, if_neg different,
      Option.map_map]
    simp only [Function.comp_def, List.map_map]
    rfl

/-- A number that stays is not replaced. -/
theorem place_eq (flattening : Flattening graph result place) (stays : graph.skip? id = none) : place id = id := by
  rcases ReflTransGen.cases_head (flattening.path id) with same | ⟨child, skips, _⟩
  · exact same.symm
  · cases stays.symm.trans skips

/-- What is stored afterwards stays. -/
theorem stays_of_get? (flattening : Flattening graph result place) (found : result.get? id = some node) :
    graph.skip? id = none := by
  cases skips : graph.skip? id with
  | none => rfl
  | some child => cases (flattening.skipped id child skips).symm.trans found

theorem child_iff (flattening : Flattening graph result place) {parent last : NodeId} :
    result.Child parent last ↔ graph.skip? parent = none ∧ ∃ old, graph.Child parent old ∧ place old = last := by
  constructor
  · intro edge
    obtain ⟨after, found, member⟩ := Graph.child_iff.mp edge
    have stays := flattening.stays_of_get? found
    rw [flattening.kept parent stays] at found
    obtain ⟨before, foundBefore, rfl⟩ := Option.map_eq_some_iff.mp found
    obtain ⟨old, isOld, rfl⟩ := List.mem_map.mp member
    exact ⟨stays, old, child_of_get? foundBefore isOld, rfl⟩
  · rintro ⟨stays, old, edge, rfl⟩
    obtain ⟨before, foundBefore, isOld⟩ := Graph.child_iff.mp edge
    have found : result.get? parent = some ⟨before.content, before.children.map place⟩ := by
      rw [flattening.kept parent stays, foundBefore]
      rfl
    exact child_of_get? found (List.mem_map_of_mem isOld)

theorem place_entry (flattening : Flattening graph result place) : place entry = entry :=
  flattening.place_eq (if_pos rfl)

theorem flat (flattening : Flattening graph result place) : result.Flat := by
  intro id node other found
  have stays := flattening.stays_of_get? found
  rw [flattening.kept id stays] at found
  obtain ⟨before, foundBefore, rfl⟩ := Option.map_eq_some_iff.mp found
  rw [skip?, if_neg other, foundBefore, Option.bind_some] at stays
  rw [Node.forwardsTo?_map, show Node.forwardsTo? ⟨before.content, before.children⟩ = none from stays]
  rfl

/-- Flattening folds forwarding nodes away. -/
theorem folds (flattening : Flattening graph result place) : Folds graph result place where
  entry := flattening.place_entry
  node := by
    intro key node _ found
    cases skips : graph.skip? key with
    | none =>
        refine .inr ?_
        rw [flattening.place_eq skips, flattening.kept key skips, found]
        rfl
    | some child =>
        obtain ⟨_, again, foundAgain, forwards⟩ := skips_iff.mp skips
        cases found.symm.trans foundAgain
        exact .inl ⟨child, forwards, flattening.next key child skips⟩
  injective := by
    have unmoved {key : NodeId} (kept : graph.Kept key) : place key = key := by
      obtain ⟨_, node, found, stays⟩ := kept
      refine flattening.place_eq (Option.eq_none_iff_forall_ne_some.mpr fun child skips => ?_)
      obtain ⟨_, again, foundAgain, forwards⟩ := skips_iff.mp skips
      cases found.symm.trans foundAgain
      cases stays.symm.trans forwards
    intro first second keptFirst keptSecond same
    rwa [unmoved keptFirst, unmoved keptSecond] at same

end Flattening

theorem firstForwarding?_eq_some {id child : NodeId} (found : graph.firstForwarding? = some (id, child)) :
    id ≠ entry ∧ ∃ node, graph.get? id = some node ∧ node.forwardsTo? = some child := by
  obtain ⟨⟨key, node⟩, listed, taken⟩ := List.exists_of_findSome?_eq_some found
  simp only at taken
  split at taken
  · cases taken
  · rename_i other
    obtain ⟨_, forwards, pair⟩ := Option.map_eq_some_iff.mp taken
    cases pair
    exact ⟨other, node, mem_toList_iff.mp listed, forwards⟩

theorem skip?_of_firstForwarding? (none_found : graph.firstForwarding? = none) (id : NodeId) :
    graph.skip? id = none := by
  refine Option.eq_none_iff_forall_ne_some.mpr fun child skips => ?_
  obtain ⟨other, node, found, forwards⟩ := skips_iff.mp skips
  have unmatched := List.findSome?_eq_none_iff.mp none_found _ (mem_toList_iff.mpr found)
  simp only [if_neg other] at unmatched
  cases (Option.map_eq_none_iff.mp unmatched).symm.trans forwards

theorem exists_flattening (graph : Graph) : ∃ place, Flattening graph graph.flatten place := by
  fun_induction flatten graph with
  | case1 graph none_found => exact ⟨_, .refl (skip?_of_firstForwarding? none_found)⟩
  | case2 graph id child found ih =>
      obtain ⟨place, later⟩ := ih
      exact ⟨_, .bypass (skips_iff.mpr (firstForwarding?_eq_some found)) later⟩

/-! ## Graphs without cycles -/

/-- Follows forwarding nodes other than the entry as long as they lead to fewer nodes; without cycles, this is
up to a node that stays. -/
def resolve (graph : Graph) (id : NodeId) : NodeId :=
  match graph.skip? id with
  | none => id
  | some child =>
      if (graph.reachable child).length < (graph.reachable id).length then graph.resolve child else id
termination_by (graph.reachable id).length

theorem resolve_of_skips (acyclic : graph.Acyclic) (skips : graph.Skips id child) :
    graph.resolve id = graph.resolve child := by
  rw [resolve, skips]
  exact if_pos (acyclic.length_reachable_lt (Skips.isChild skips))

theorem resolve_of_stays (stays : graph.skip? id = none) : graph.resolve id = id := by
  rw [resolve, stays]

/-- Where forwarding ends, nothing is skipped any more. -/
theorem skip?_resolve (acyclic : graph.Acyclic) (id : NodeId) : graph.skip? (graph.resolve id) = none := by
  induction id using acyclic.induction with
  | step id ih =>
      cases skips : graph.skip? id with
      | none => rwa [resolve_of_stays skips]
      | some child =>
          rw [resolve_of_skips acyclic skips]
          exact ih child (Skips.isChild skips)

/-- All ways to flatten a graph without cycles agree on the numbers. -/
theorem Flattening.place_eq_resolve (flattening : Flattening graph result place) (acyclic : graph.Acyclic)
    (id : NodeId) : place id = graph.resolve id := by
  induction id using acyclic.induction with
  | step id ih =>
      cases skips : graph.skip? id with
      | none => rw [resolve_of_stays skips, flattening.place_eq skips]
      | some child =>
          rw [resolve_of_skips acyclic skips, flattening.next id child skips]
          exact ih child (Skips.isChild skips)

theorem Flattening.skip?_place (flattening : Flattening graph result place) (acyclic : graph.Acyclic)
    (id : NodeId) : graph.skip? (place id) = none :=
  flattening.place_eq_resolve acyclic id ▸ skip?_resolve acyclic id

/-- A flattened graph has its entry, all of its children and no cycles if this holds of the graph. -/
theorem Flattening.proper (flattening : Flattening graph result place) (proper : graph.Proper) : result.Proper where
  entry := by
    obtain ⟨node, found⟩ := proper.entry
    rw [flattening.kept Graph.entry (if_pos rfl), found]
    exact ⟨_, rfl⟩
  closed := by
    intro parent last edge
    obtain ⟨_, old, oldEdge, rfl⟩ := flattening.child_iff.mp edge
    obtain ⟨node, found⟩ := stored_of_skips proper.closed (flattening.path old) (proper.closed parent old oldEdge)
    rw [flattening.kept _ (flattening.skip?_place proper.acyclic old), found]
    exact ⟨_, rfl⟩
  acyclic := by
    intro id circle
    refine proper.acyclic id (TransGen.closed (fun parent last edge => ?_) id id circle)
    obtain ⟨_, old, oldEdge, rfl⟩ := flattening.child_iff.mp edge
    exact .head' oldEdge (reaches_of_skips (flattening.path old))

/-- Flattening a graph without cycles leaves exactly the nodes that stay, with their contents, and writes for
every child the node that stays where forwarding from the child ends. -/
theorem flatten_resolves (closed : graph.Closed) (acyclic : graph.Acyclic) :
    (∀ id after, graph.flatten.get? id = some after ↔
      ∃ node, graph.get? id = some node ∧ Stays id node ∧
        after = ⟨node.content, node.children.map graph.resolve⟩) ∧
      ∀ id, graph.contains id = true →
        ReflTransGen graph.Skips id (graph.resolve id) ∧
          ∃ node, graph.get? (graph.resolve id) = some node ∧ Stays (graph.resolve id) node := by
  obtain ⟨place, flattening⟩ := exists_flattening graph
  have same : place = graph.resolve := funext (flattening.place_eq_resolve acyclic)
  subst same
  constructor
  · intro id after
    constructor
    · intro found
      have stays := flattening.stays_of_get? found
      rw [flattening.kept id stays] at found
      obtain ⟨node, foundBefore, rfl⟩ := Option.map_eq_some_iff.mp found
      exact ⟨node, foundBefore, (stays_iff foundBefore).mpr stays, rfl⟩
    · rintro ⟨node, found, stays, rfl⟩
      rw [flattening.kept id ((stays_iff found).mp stays), found]
      rfl
  · intro id stored
    refine ⟨flattening.path id, ?_⟩
    obtain ⟨node, found⟩ := stored_of_skips closed (flattening.path id) (contains_iff.mp stored)
    exact ⟨node, found, (stays_iff found).mpr (skip?_resolve acyclic id)⟩

/-- Two forwarding nodes in a row; the one with the larger number comes first. -/
def relay : Graph :=
  empty
    |>.insert 2 ⟨.documentation "start", [4, 3, 4]⟩
    |>.insert 3 ⟨.data .empty, [5]⟩
    |>.insert 4 ⟨.data .empty, [3]⟩
    |>.insert 5 ⟨.data .empty, []⟩

theorem flatten_resolves_relay :
    relay.Closed ∧ relay.Acyclic ∧ relay.flatten.get? 4 = none ∧
      relay.flatten.get? 2 = some ⟨.documentation "start", [4, 3, 4].map relay.resolve⟩ ∧
      relay.resolve 4 = 5 := by
  have proper : relay.Proper := by decide +kernel
  have flattened : relay.flatten.get? 4 = none ∧
      relay.flatten.get? 2 = some ⟨.documentation "start", [5, 5, 5]⟩ := by decide +kernel
  obtain ⟨nodes, _⟩ := flatten_resolves proper.closed proper.acyclic
  have first := (nodes 2 _).mpr ⟨⟨.documentation "start", [4, 3, 4]⟩, rfl, .inl rfl, rfl⟩
  refine ⟨proper.closed, proper.acyclic, flattened.1, first, ?_⟩
  have same := Option.some.inj (first.symm.trans flattened.2)
  exact (List.cons.inj (Node.mk.inj same).2).1

end MissionGraph.Graph
