import MissionGraph.Play.Walk
import MissionGraph.Proofs.Build.Sound
import MissionGraph.Proofs.Record.Loading

/-!
# Walks and their faults

In a proper graph without joined chains of decisions, every visit leads to a child or to the end, unless it
meets a decision that does not have two ways out. So a walk comes to an end before its visits are used up,
and such a decision is the only fault that it can meet. Loaded graphs are of this kind.
-/

namespace MissionGraph.Play

variable {graph : Graph} {params : Params}

/-- The factions of a stored node can be looked up. -/
theorem offerGroupAt_of_get? {id : NodeId} {node : Node} (found : graph.get? id = some node) :
    offerGroupAt graph id =
      .ok ((node.data?.bind Mission.Data.offerGroup).filter fun factions => !factions.isEmpty) := by
  rw [offerGroupAt, found]

/-- A test for groups takes one of its two ways or ends the walk. -/
theorem decideGroup_ok {id first second : NodeId} {firstNode secondNode : Node}
    (foundFirst : graph.get? first = some firstNode) (foundSecond : graph.get? second = some secondNode) :
    ∃ notices next, decideGroup graph params id first second = .ok (notices, next) ∧
      ∀ way, next = some way → way ∈ [first, second] := by
  unfold decideGroup
  rw [offerGroupAt_of_get? foundFirst, offerGroupAt_of_get? foundSecond]
  simp only [Success.ok_bind]
  split
  · exact ⟨_, _, rfl, nofun⟩
  · split
    · refine ⟨_, _, rfl, ?_⟩
      rintro _ ⟨⟩
      exact List.mem_cons_self
    · split
      · refine ⟨_, _, rfl, ?_⟩
        rintro _ ⟨⟩
        exact List.mem_cons_of_mem _ List.mem_cons_self
      · split
        · refine ⟨_, _, rfl, ?_⟩
          rintro _ ⟨⟩
          exact List.mem_cons_of_mem _ List.mem_cons_self
        · exact ⟨_, _, rfl, nofun⟩

theorem decideNamed_mem (nickname : String) (first second : NodeId) :
    (decideNamed params nickname first second).2 ∈ [first, second] := by
  unfold decideNamed
  split <;> simp

/-- A decision with two stored children takes one of its two ways or ends the walk. -/
theorem chooseWay_ok (params : Params) (closed : graph.Closed) {id : NodeId} {nickname : String} {children : List NodeId}
    (found : graph.get? id = some ⟨.decision nickname, children⟩) (arity : children.length = 2) :
    ∃ notices next, chooseWay graph params id nickname children = .ok (notices, next) ∧
      ∀ way, next = some way → way ∈ children := by
  obtain ⟨first, second, rfl⟩ := List.length_eq_two.mp arity
  obtain ⟨firstNode, foundFirst⟩ := closed id first (Graph.child_of_get? found List.mem_cons_self)
  obtain ⟨secondNode, foundSecond⟩ :=
    closed id second (Graph.child_of_get? found (List.mem_cons_of_mem _ List.mem_cons_self))
  rw [chooseWay]
  split
  · exact decideGroup_ok foundFirst foundSecond
  · refine ⟨_, _, rfl, ?_⟩
    rintro _ ⟨⟩
    exact decideNamed_mem nickname first second

/-- What follows a visit that meets no fault. -/
inductive Turn.Safe (graph : Graph) (id : NodeId) : Turn → Prop where
  | goOn (next : NodeId) (traveller : Traveller) (edge : graph.Child id next) : Safe graph id (.goOn next traveller)
  | finish (report : Report) : Safe graph id (.finish report)

theorem goAhead_safe {id : NodeId} {node : Node} (found : graph.get? id = some node) (traveller : Traveller) :
    (traveller.goAhead node.children).Safe graph id := by
  obtain ⟨content, children⟩ := node
  cases children with
  | nil => exact .finish _
  | cons child rest => exact .goOn _ _ (Graph.child_of_get? found List.mem_cons_self)

/-- A visit to a sound node meets no fault. -/
theorem visit_safe (params : Params) (closed : graph.Closed) {id : NodeId} {node : Node}
    (found : graph.get? id = some node) (sound : node.Sound) (traveller : Traveller) :
    (visit graph params id node traveller).2.Safe graph id := by
  obtain ⟨content, children⟩ := node
  unfold visit
  cases content with
  | documentation text => exact goAhead_safe found _
  | data data =>
      dsimp only
      split
      · exact goAhead_safe found _
      · exact .finish _
  | decision nickname =>
      obtain ⟨notices, next, chosen, among⟩ := chooseWay_ok params closed found sound
      dsimp only
      rw [chosen]
      cases next with
      | none => exact .finish _
      | some way => exact .goOn _ _ (Graph.child_of_get? found (among way rfl))
  | choice conditions => exact False.elim sound

/-- A decision that does not have two children leads nowhere. -/
theorem chooseWay_arity (params : Params) (id : NodeId) (nickname : String) {children : List NodeId}
    (wrong : children.length ≠ 2) :
    chooseWay graph params id nickname children = .error (.decisionArity id children.length) := by
  unfold chooseWay
  split
  · exact absurd rfl wrong
  · rfl

/-- What follows a visit to a node that is no joined chain of decisions: it meets no fault, or the node is a
decision that does not have two children. -/
inductive Turn.Guarded (graph : Graph) (id : NodeId) : Turn → Prop where
  | safe {turn : Turn} (safe : turn.Safe graph id) : Guarded graph id turn
  | arity (nickname : String) (children : List NodeId)
      (found : graph.get? id = some ⟨.decision nickname, children⟩) (wrong : children.length ≠ 2) :
      Guarded graph id (.fault (.decisionArity id children.length))

theorem visit_guarded (params : Params) (closed : graph.Closed) {id : NodeId} {node : Node}
    (found : graph.get? id = some node) (plain : ∀ conditions, node.content ≠ .choice conditions)
    (traveller : Traveller) : (visit graph params id node traveller).2.Guarded graph id := by
  by_cases sound : node.Sound
  · exact .safe (visit_safe params closed found sound traveller)
  · obtain ⟨content, children⟩ := node
    cases content with
    | documentation text => exact absurd trivial sound
    | data data => exact absurd trivial sound
    | decision nickname =>
        rw [visit]
        dsimp only
        rw [chooseWay_arity params id nickname sound]
        exact .arity nickname children found sound
    | choice conditions => exact absurd rfl (plain conditions)

/-- The walk has a report, or it has met a decision that does not have two children. -/
inductive Outcome.Guarded (graph : Graph) (outcome : Outcome) : Prop where
  | report (report : Report) (success : outcome.result = .ok report)
  | arity (id : NodeId) (nickname : String) (children : List NodeId)
      (found : graph.get? id = some ⟨.decision nickname, children⟩) (wrong : children.length ≠ 2)
      (failure : outcome.result = .error (.decisionArity id children.length))

/-- A walk meets no other fault than that of a decision if it has as many visits left as numbers are
ahead. -/
theorem walk_guarded (proper : graph.Proper)
    (plain : ∀ id conditions children, graph.get? id ≠ some ⟨.choice conditions, children⟩) (visits : Nat)
    {id : NodeId} (stored : ∃ node, graph.get? id = some node)
    (enough : (graph.reachable id).length ≤ visits) (traveller : Traveller) :
    (walk graph params visits id traveller).Guarded graph := by
  induction visits generalizing id traveller with
  | zero =>
      have reached : id ∈ graph.reachable id := Graph.mem_reachable_iff.mpr .refl
      exact absurd (List.length_pos_of_mem reached) (Nat.not_lt.mpr enough)
  | succ visits ih =>
      obtain ⟨⟨content, children⟩, found⟩ := stored
      have guarded := visit_guarded params proper.closed found
        (fun conditions isChoice => plain id conditions children (isChoice ▸ found)) traveller
      rw [walk, found]
      dsimp only
      revert guarded
      generalize visit graph params id ⟨content, children⟩ traveller = visited
      obtain ⟨notices, turn⟩ := visited
      intro guarded
      cases guarded with
      | arity nickname children found wrong => exact .arity id nickname children found wrong rfl
      | safe safe =>
          cases safe with
          | finish report => exact .report report rfl
          | goOn next traveller edge =>
              -- the numbers ahead of a child are fewer, as the graph has no cycle
              have fewer := proper.acyclic.length_reachable_lt edge
              cases ih (proper.closed id next edge) (Nat.le_of_lt_succ (Nat.lt_of_lt_of_le fewer enough))
                  traveller with
              | report report success => exact .report report success
              | arity place nickname children found wrong failure =>
                  exact .arity place nickname children found wrong failure

theorem length_reachable_le (proper : graph.Proper) : (graph.reachable Graph.entry).length ≤ graph.size := by
  rw [← Graph.length_ids]
  refine (List.subperm_of_subset (Graph.nodup_reachable graph Graph.entry) fun id member => ?_).length_le
  exact Graph.mem_ids_iff.mpr (proper.stored (Graph.mem_reachable_iff.mp member))

/-- A walk through a proper graph from its entry on has enough visits. -/
theorem run_guarded (proper : graph.Proper)
    (plain : ∀ id conditions children, graph.get? id ≠ some ⟨.choice conditions, children⟩) (seed : UInt64) :
    (run graph params seed).Guarded graph :=
  walk_guarded proper plain graph.size proper.entry (length_reachable_le proper) _

/-- Every walk through a proper graph of sound nodes ends with a report. -/
theorem run_ok (proper : graph.Proper) (sound : ∀ id node, graph.get? id = some node → node.Sound)
    (seed : UInt64) : ∃ report, (run graph params seed).result = .ok report := by
  cases run_guarded proper (fun id conditions children found => sound id _ found) seed with
  | report report success => exact ⟨report, success⟩
  | arity id nickname children found wrong failure => exact absurd (sound id _ found) wrong

/-- A walk through a loaded graph ends with a report or at a decision that does not have two children: all
nodes that it comes to are stored, none of them is a joined chain of decisions, and it never runs out of
visits. -/
theorem run_loaded {records : List Record} (loads : Graph.ofRecords records = .ok graph) (params : Params)
    (seed : UInt64) :
    (∃ report, (run graph params seed).result = .ok report) ∨
      ∃ id nickname children, graph.get? id = some ⟨.decision nickname, children⟩ ∧ children.length ≠ 2 ∧
        (run graph params seed).result = .error (.decisionArity id children.length) := by
  have proper := Graph.proper_of_ofRecords loads
  cases run_guarded proper (Graph.plain_of_ofRecords loads) seed with
  | report report success => exact .inl ⟨report, success⟩
  | arity id nickname children found wrong failure =>
      exact .inr ⟨id, nickname, children, found, wrong, failure⟩

/-- Records of a decision with three ways, two of which rejoin, are loaded, and walks through them are of the
two kinds. -/
theorem run_loaded_three_ways : ∃ graph,
    Graph.ofRecords
        [⟨.data, 2, [⟨"Weight", [.int 1]⟩], [3]⟩, ⟨.decision, 3, [⟨"nickname", [.name "Pre_battle"]⟩], [4, 5, 5]⟩,
          ⟨.documentation, 4, [⟨"documentation", [.name "intro"]⟩], [5]⟩,
          ⟨.decision, 5, [⟨"nickname", [.name "branch"]⟩], [6, 6]⟩,
          ⟨.data, 6, [⟨"Offer_group", [.name "li_n_grp"]⟩], []⟩] = .ok graph ∧
      ∀ params seed, (∃ report, (run graph params seed).result = .ok report) ∨
        ∃ id nickname children, graph.get? id = some ⟨.decision nickname, children⟩ ∧ children.length ≠ 2 ∧
          (run graph params seed).result = .error (.decisionArity id children.length) := by
  refine Exists.imp (fun graph loads => ⟨loads, fun params seed => run_loaded loads params seed⟩)
    (Success.exists_of_isSome ?_)
  decide +kernel

end MissionGraph.Play
