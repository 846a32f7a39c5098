import MissionGraph.Proofs.Play.Simplified

/-!
# How walks that lead nowhere are told apart

A walk counts its visits and gives up when there would be more of them than stored nodes. Where it goes from a node
depends on the graph and the parameters only, so that a walk that comes back to a node goes round for ever and is
rightly called a cycle. A walk that steps to a number that is not stored is told so, with one exception: if it has
visited every stored node by then, the count is looked at first, and the walk is called a cycle although it comes to no
node twice.
-/

namespace MissionGraph.Play

variable {graph : Graph} {params : Params} {seed : UInt64} {id next last : NodeId} {visited : List NodeId}

/-! ## What can come of a visit -/

theorem offerGroupAt_cases (graph : Graph) (id : NodeId) :
    offerGroupAt graph id = .error (.missingNode id) ∨ ∃ named, offerGroupAt graph id = .ok named := by
  unfold offerGroupAt
  cases graph.get? id with
  | none => exact .inl rfl
  | some node => exact .inr ⟨_, rfl⟩

/-- A test for groups fails only at a child that is not stored. -/
theorem decideGroup_cases (graph : Graph) (params : Params) (id first second : NodeId) :
    (∃ child, decideGroup graph params id first second = .error (.missingNode child)) ∨
      ∃ notices way, decideGroup graph params id first second = .ok (notices, way) ∧ visitedIds notices = [] := by
  unfold decideGroup
  rcases offerGroupAt_cases graph first with missing | ⟨named, found⟩
  · rw [missing]
    exact .inl ⟨first, rfl⟩
  · rw [found, Success.ok_bind]
    cases named with
    | none => exact .inr ⟨_, _, rfl, rfl⟩
    | some factions =>
        dsimp only
        split
        · exact .inr ⟨_, _, rfl, rfl⟩
        · rcases offerGroupAt_cases graph second with missing | ⟨others, foundSecond⟩
          · rw [missing]
            exact .inl ⟨second, rfl⟩
          · rw [foundSecond, Success.ok_bind]
            cases others with
            | none => exact .inr ⟨_, _, rfl, rfl⟩
            | some others =>
                dsimp only
                split <;> exact .inr ⟨_, _, rfl, rfl⟩

/-- A decision fails with another fault than that of a cycle, or takes a way and tells of no visit. -/
theorem chooseWay_cases (graph : Graph) (params : Params) (id : NodeId) (nickname : String) (children : List NodeId) :
    (∃ fault, chooseWay graph params id nickname children = .error fault ∧ ∀ last, fault ≠ .cycle last) ∨
      ∃ notices way, chooseWay graph params id nickname children = .ok (notices, way) ∧ visitedIds notices = [] := by
  unfold chooseWay
  split
  · rename_i first second
    split
    · rcases decideGroup_cases graph params id first second with ⟨child, failed⟩ | decided
      · refine .inl ⟨_, failed, fun last same => ?_⟩
        cases same
      · exact .inr decided
    · refine .inr ⟨_, _, rfl, ?_⟩
      rcases params.condition? nickname with _ | _ | _ <;> rfl
  · refine .inl ⟨_, rfl, fun last same => ?_⟩
    cases same

/-- What can come of a visit, whatever the walk carries: it leads to one and the same number, it ends the walk, or it meets
a fault, which is not that of a cycle. -/
inductive Bearing (graph : Graph) (params : Params) (id : NodeId) (node : Node) : Prop where
  | onward (next : NodeId) (leads : ∀ traveller, ∃ later, (visit graph params id node traveller).2 = .goOn next later)
  | ends (finishes : ∀ traveller, ∃ report, (visit graph params id node traveller).2 = .finish report)
  | faulty (fault : RunFault) (noCycle : ∀ last, fault ≠ .cycle last)
      (meets : ∀ traveller, (visit graph params id node traveller).2 = .fault fault)

theorem bearing_of_goAhead {node : Node} (take : Traveller → Traveller)
    (ahead : ∀ traveller, (visit graph params id node traveller).2 = (take traveller).goAhead node.children) :
    Bearing graph params id node := by
  cases children : node.children with
  | nil =>
      refine .ends fun traveller => ⟨(take traveller).report, ?_⟩
      rw [ahead, children]
      rfl
  | cons child rest =>
      refine .onward child fun traveller => ⟨take traveller, ?_⟩
      rw [ahead, children]
      rfl

theorem bearing (graph : Graph) (params : Params) (id : NodeId) (node : Node) : Bearing graph params id node := by
  obtain ⟨content, children⟩ := node
  cases content with
  | documentation text => exact bearing_of_goAhead (·.takeDocumentation text) fun traveller => rfl
  | data data =>
      cases implemented : data.implemented with
      | false =>
          refine .ends fun traveller => ⟨traveller.report.fail, ?_⟩
          simp only [visit, implemented, Bool.false_eq_true, if_false]
      | true =>
          refine bearing_of_goAhead (·.takeData data) fun traveller => ?_
          simp only [visit, implemented, if_true]
  | decision nickname =>
      rcases chooseWay_cases graph params id nickname children with ⟨fault, failed, noCycle⟩ | ⟨notices, way, chosen, _⟩
      · refine .faulty fault noCycle fun traveller => ?_
        simp only [visit, failed]
      · cases way with
        | none =>
            refine .ends fun traveller => ⟨traveller.report.fail, ?_⟩
            simp only [visit, chosen]
        | some next =>
            refine .onward next fun traveller => ⟨traveller, ?_⟩
            simp only [visit, chosen]
  | choice conditions =>
      refine .faulty (.unevaluable id) (fun last same => ?_) fun traveller => rfl
      cases same

/-! ## Where a walk goes -/

/-- A visit leads from the first number, which is stored, to the second one. -/
def GoesTo (graph : Graph) (params : Params) (id next : NodeId) : Prop :=
  ∃ node traveller later, graph.get? id = some node ∧ (visit graph params id node traveller).2 = .goOn next later

theorem GoesTo.leads (goes : GoesTo graph params id next) :
    ∃ node, graph.get? id = some node ∧
      ∀ traveller, ∃ later, (visit graph params id node traveller).2 = .goOn next later := by
  obtain ⟨node, traveller, later, found, turn⟩ := goes
  refine ⟨node, found, ?_⟩
  cases bearing graph params id node with
  | onward other leads =>
      obtain ⟨again, sameTurn⟩ := leads traveller
      rw [turn] at sameTurn
      cases sameTurn
      exact leads
  | ends finishes =>
      obtain ⟨report, otherTurn⟩ := finishes traveller
      cases turn.symm.trans otherTurn
  | faulty fault _ meets => cases turn.symm.trans (meets traveller)

theorem GoesTo.functional {other : NodeId} (goes : GoesTo graph params id next) (again : GoesTo graph params id other) :
    next = other := by
  obtain ⟨node, found, leads⟩ := goes.leads
  obtain ⟨_, traveller, _, foundAgain, turn⟩ := again
  cases found.symm.trans foundAgain
  obtain ⟨later, sameTurn⟩ := leads traveller
  cases turn.symm.trans sameTurn
  rfl

/-- The walk from the entry visits the listed numbers one after the other and comes to a further one. -/
inductive Trail (graph : Graph) (params : Params) : List NodeId → NodeId → Prop where
  | start : Trail graph params [] Graph.entry
  | visit {visited : List NodeId} {id next : NodeId} (earlier : Trail graph params visited id)
      (goes : GoesTo graph params id next) : Trail graph params (visited ++ [id]) next

/-- The walk comes to a number that it has visited before. -/
def ComesBack (graph : Graph) (params : Params) : Prop :=
  ∃ visited id, Trail graph params visited id ∧ id ∈ visited

theorem append_subset_ids {node : Node} (stored : visited ⊆ graph.ids) (found : graph.get? id = some node) :
    visited ++ [id] ⊆ graph.ids :=
  List.append_subset.mpr
    ⟨stored, List.cons_subset.mpr ⟨Graph.mem_ids_iff.mpr ⟨node, found⟩, List.nil_subset _⟩⟩

namespace Trail

theorem stored (trail : Trail graph params visited last) : visited ⊆ graph.ids := by
  induction trail with
  | start => exact List.nil_subset _
  | visit _ goes ih =>
      obtain ⟨node, found, _⟩ := goes.leads
      exact append_subset_ids ih found

/-- There is only one walk of a length. -/
theorem unique {others : List NodeId} (trail : Trail graph params visited last) (again : Trail graph params others id)
    (sameLength : visited.length = others.length) : visited = others ∧ last = id := by
  induction trail generalizing others id with
  | start =>
      cases again with
      | start => exact ⟨rfl, rfl⟩
      | visit _ _ => simp at sameLength
  | visit _ goes ih =>
      cases again with
      | start => simp at sameLength
      | visit earlier goesAgain =>
          obtain ⟨rfl, rfl⟩ := ih earlier (by simpa using sameLength)
          exact ⟨rfl, goes.functional goesAgain⟩

theorem entry_mem (trail : Trail graph params visited last) : Graph.entry ∈ visited ++ [last] := by
  induction trail with
  | start => exact List.mem_cons_self
  | visit _ _ ih => exact List.mem_append_left _ ih

/-- Each visited node leads to another one or to where the walk comes. -/
theorem onward (trail : Trail graph params visited last) :
    ∀ id ∈ visited, ∃ next ∈ visited ++ [last], GoesTo graph params id next := by
  induction trail with
  | start => exact fun _ member => absurd member List.not_mem_nil
  | visit _ goes ih =>
      intro id member
      rcases List.mem_append.mp member with before | here
      · obtain ⟨next, among, goesOn⟩ := ih id before
        exact ⟨next, List.mem_append_left _ among, goesOn⟩
      · cases List.mem_singleton.mp here
        exact ⟨_, List.mem_append_right _ List.mem_cons_self, goes⟩

theorem nodup_or_comesBack (trail : Trail graph params visited last) :
    (visited ++ [last]).Nodup ∨ ComesBack graph params := by
  induction trail with
  | start => exact .inl (List.nodup_singleton _)
  | @visit visited id next earlier goes ih =>
      rcases ih with distinct | comesBack
      · by_cases again : next ∈ visited ++ [id]
        · exact .inr ⟨_, next, earlier.visit goes, again⟩
        · exact .inl (List.nodup_append_comm.mp (List.nodup_cons.mpr ⟨again, distinct⟩))
      · exact .inr comesBack

end Trail

/-- A walk that comes back can be followed for ever, and all that it comes to is stored. -/
theorem ComesBack.goesOn (comesBack : ComesBack graph params) (count : Nat) :
    ∃ visited id, Trail graph params visited id ∧ visited.length = count ∧ id ∈ graph.ids := by
  obtain ⟨circle, last, trail, again⟩ := comesBack
  have closed {id : NodeId} (among : id ∈ circle ++ [last]) : id ∈ circle := by
    rcases List.mem_append.mp among with inside | isLast
    · exact inside
    · rwa [List.mem_singleton.mp isLast]
  suffices followed : ∃ visited id, Trail graph params visited id ∧ visited.length = count ∧ id ∈ circle by
    obtain ⟨visited, id, longer, length, inside⟩ := followed
    exact ⟨visited, id, longer, length, trail.stored inside⟩
  induction count with
  | zero => exact ⟨[], Graph.entry, .start, rfl, closed trail.entry_mem⟩
  | succ count ih =>
      obtain ⟨visited, id, longer, length, inside⟩ := ih
      obtain ⟨next, among, goes⟩ := trail.onward id inside
      exact ⟨_, next, longer.visit goes, by rw [List.length_append, length]; rfl, closed among⟩

/-- A walk that steps to a number that is not stored has visited no node twice. -/
theorem Trail.nodup_of_missing (trail : Trail graph params visited last) (missing : graph.get? last = none) :
    visited.Nodup := by
  rcases trail.nodup_or_comesBack with distinct | comesBack
  · exact distinct.of_append_left
  · obtain ⟨others, id, other, length, stored⟩ := comesBack.goesOn visited.length
    obtain ⟨_, rfl⟩ := trail.unique other length.symm
    exact absurd stored (Graph.get?_eq_none_iff.mp missing)

/-! ## What a run tells and returns -/

/-- What a walk tells at a node: that it is there, and what the visit tells. -/
def toldAt (graph : Graph) (params : Params) (id : NodeId) (node : Node) (traveller : Traveller) : List Notice :=
  .visited id node.content :: (visit graph params id node traveller).1

theorem walk_of_goOn {node : Node} {traveller later : Traveller} (found : graph.get? id = some node)
    (turn : (visit graph params id node traveller).2 = .goOn next later) (visits : Nat) :
    walk graph params (visits + 1) id traveller =
      (walk graph params visits next later).after (toldAt graph params id node traveller) := by
  rw [walk, found]
  simp only [turn]
  rfl

theorem Outcome.after_after (outcome : Outcome) (earlier told : List Notice) :
    (outcome.after told).after earlier = outcome.after (earlier ++ told) :=
  congrArg (Outcome.mk · outcome.result) (List.append_assoc _ _ _).symm

/-- A visit tells of no other visit. -/
theorem visitedIds_visit (graph : Graph) (params : Params) (id : NodeId) (node : Node) (traveller : Traveller) :
    visitedIds (visit graph params id node traveller).1 = [] := by
  obtain ⟨content, children⟩ := node
  cases content with
  | documentation text => rfl
  | data data =>
      rw [visit]
      dsimp only
      split <;> rfl
  | decision nickname =>
      rw [visit]
      dsimp only
      rcases chooseWay_cases graph params id nickname children with ⟨fault, failed, _⟩ | ⟨notices, way, chosen, silent⟩
      · rw [failed]
        rfl
      · rw [chosen]
        cases way <;> exact silent
  | choice conditions => rfl

theorem visitedIds_toldAt (graph : Graph) (params : Params) (id : NodeId) (node : Node) (traveller : Traveller) :
    visitedIds (toldAt graph params id node traveller) = [id] :=
  congrArg (List.cons id) (visitedIds_visit graph params id node traveller)

theorem length_visitedIds_walk (graph : Graph) (params : Params) (visits : Nat) (id : NodeId) (traveller : Traveller) :
    (visitedIds (walk graph params visits id traveller).notices).length ≤ visits := by
  induction visits generalizing id traveller with
  | zero => exact Nat.le_refl 0
  | succ visits ih =>
      cases found : graph.get? id with
      | none =>
          rw [walk, found]
          exact Nat.zero_le _
      | some node =>
          have told := visitedIds_toldAt graph params id node traveller
          rw [toldAt] at told
          rw [walk, found]
          dsimp only
          split
          · exact told ▸ Nat.succ_le_succ (Nat.zero_le _)
          · exact told ▸ Nat.succ_le_succ (Nat.zero_le _)
          · rename_i next later _
            rw [Outcome.after, visitedIds_append, told, List.length_append, List.length_singleton, Nat.add_comm]
            exact Nat.succ_le_succ (ih next later)

/-- A run follows a trail as long as visits are left. -/
theorem run_of_trail (trail : Trail graph params visited id) (seed : UInt64) (visits : Nat)
    (left : visited.length + visits = graph.size) :
    ∃ traveller earlier, visitedIds earlier = visited ∧
      run graph params seed = (walk graph params visits id traveller).after earlier := by
  induction trail generalizing visits with
  | start =>
      rw [List.length_nil, Nat.zero_add] at left
      exact ⟨⟨.empty, .ofSeed seed⟩, [], rfl, by rw [run, left]; rfl⟩
  | visit _ goes ih =>
      rw [List.length_append, List.length_singleton, Nat.add_assoc, Nat.add_comm 1] at left
      obtain ⟨traveller, earlier, told, same⟩ := ih (visits + 1) left
      obtain ⟨node, found, leads⟩ := goes.leads
      obtain ⟨later, turn⟩ := leads traveller
      refine ⟨later, _, ?_, by rw [same, walk_of_goOn found turn, Outcome.after_after]⟩
      rw [visitedIds_append, told, visitedIds_toldAt]

theorem exists_trail_of_walk {visits : Nat} {traveller : Traveller} (trail : Trail graph params visited id)
    (called : (walk graph params visits id traveller).result = .error (.cycle last)) :
    ∃ longer, Trail graph params longer last ∧ longer.length = visited.length + visits := by
  induction visits generalizing visited id traveller with
  | zero =>
      cases called
      exact ⟨visited, trail, rfl⟩
  | succ visits ih =>
      cases found : graph.get? id with
      | none =>
          rw [walk, found] at called
          cases called
      | some node =>
          rw [result_walk found] at called
          cases bearing graph params id node with
          | onward next leads =>
              obtain ⟨later, turn⟩ := leads traveller
              rw [turn] at called
              obtain ⟨longer, longerTrail, length⟩ := ih (trail.visit ⟨node, traveller, later, found, turn⟩) called
              refine ⟨longer, longerTrail, ?_⟩
              rw [length, List.length_append, List.length_singleton, Nat.add_assoc, Nat.add_comm 1]
          | ends finishes =>
              obtain ⟨report, turn⟩ := finishes traveller
              rw [turn] at called
              cases called
          | faulty fault noCycle meets =>
              rw [meets traveller] at called
              exact absurd (Except.error.inj called) (noCycle last)

/-- A run is called a cycle at the number that it comes to after as many visits as there are stored nodes. -/
theorem result_run_eq_cycle_iff :
    (run graph params seed).result = .error (.cycle id) ↔
      ∃ visited, Trail graph params visited id ∧ visited.length = graph.size := by
  constructor
  · intro called
    obtain ⟨visited, trail, length⟩ := exists_trail_of_walk .start called
    exact ⟨visited, trail, by rw [length, List.length_nil, Nat.zero_add]⟩
  · rintro ⟨visited, trail, length⟩
    obtain ⟨traveller, earlier, _, same⟩ := run_of_trail trail seed 0 length
    rw [same]
    rfl

theorem result_run_of_missing (trail : Trail graph params visited id) (missing : graph.get? id = none)
    (fewer : visited.length < graph.size) (seed : UInt64) :
    (run graph params seed).result = .error (.missingNode id) := by
  obtain ⟨visits, left⟩ := Nat.exists_eq_add_of_lt fewer
  obtain ⟨traveller, earlier, _, same⟩ := run_of_trail trail seed (visits + 1) left.symm
  rw [same, walk, missing]
  rfl

/-- The run tells of the nodes of a trail in their order, as long as visits are left. -/
theorem Trail.isPrefix_visitedIds (trail : Trail graph params visited id) (fits : visited.length ≤ graph.size)
    (seed : UInt64) : visited <+: visitedIds (run graph params seed).notices := by
  obtain ⟨visits, left⟩ := Nat.exists_eq_add_of_le fits
  obtain ⟨traveller, earlier, told, same⟩ := run_of_trail trail seed visits left.symm
  rw [same, Outcome.after, visitedIds_append, told]
  exact List.prefix_append _ _

/-- A walk that comes back to a node is called a cycle. -/
theorem ComesBack.result_run (comesBack : ComesBack graph params) (seed : UInt64) :
    ∃ id, (run graph params seed).result = .error (.cycle id) := by
  obtain ⟨visited, id, trail, all, _⟩ := comesBack.goesOn graph.size
  exact ⟨id, result_run_eq_cycle_iff.mpr ⟨visited, trail, all⟩⟩

/-! ## Walks that run off the graph -/

/-- The walk visits every stored node once and then steps to a number that is not stored. -/
def RunsOff (graph : Graph) (params : Params) (id : NodeId) : Prop :=
  ∃ visited, Trail graph params visited id ∧ visited.Perm graph.ids ∧ graph.get? id = none

theorem RunsOff.result_run (runsOff : RunsOff graph params id) (seed : UInt64) :
    (run graph params seed).result = .error (.cycle id) := by
  obtain ⟨visited, trail, all, _⟩ := runsOff
  exact result_run_eq_cycle_iff.mpr ⟨visited, trail, all.length_eq.trans graph.length_ids⟩

theorem Trail.runsOff (trail : Trail graph params visited id) (missing : graph.get? id = none)
    (all : visited.length = graph.size) : RunsOff graph params id := by
  have among := List.subperm_of_subset (trail.nodup_of_missing missing) trail.stored
  exact ⟨visited, trail, among.perm_of_length_le (by rw [all, graph.length_ids]), missing⟩

/-- A walk that makes all its visits and goes on comes back to a node, unless it runs off the graph. -/
theorem Trail.comesBack_or_runsOff (trail : Trail graph params visited id) (all : visited.length = graph.size) :
    ComesBack graph params ∨ RunsOff graph params id := by
  cases found : graph.get? id with
  | none => exact .inr (trail.runsOff found all)
  | some node =>
      refine .inl (trail.nodup_or_comesBack.resolve_left fun distinct => ?_)
      -- one number more than there are stored ones
      have bound := (List.subperm_of_subset distinct (append_subset_ids trail.stored found)).length_le
      rw [List.length_append, List.length_singleton, all, graph.length_ids] at bound
      exact Nat.not_succ_le_self _ bound

/-- A walk that steps to a number that is not stored fails with that number, unless it runs off the graph. -/
theorem Trail.result_run_or_runsOff (trail : Trail graph params visited id) (missing : graph.get? id = none)
    (seed : UInt64) : (run graph params seed).result = .error (.missingNode id) ∨ RunsOff graph params id := by
  have fits : visited.length ≤ graph.size :=
    graph.length_ids ▸ (List.subperm_of_subset (trail.nodup_of_missing missing) trail.stored).length_le
  rcases Nat.lt_or_eq_of_le fits with fewer | all
  · exact .inl (result_run_of_missing trail missing fewer seed)
  · exact .inr (trail.runsOff missing all)

/-! ## Faults that name what is wrong -/

/-- What is expected of a run: it visits no more nodes than are stored; if it is called a cycle, the walk does come back
to a node; and if the walk steps to a number that is not stored, it fails with that number. -/
structure Diagnosed (graph : Graph) (params : Params) (seed : UInt64) : Prop where
  bounded : (visitedIds (run graph params seed).notices).length ≤ graph.size
  cycle : ∀ id, (run graph params seed).result = .error (.cycle id) → ComesBack graph params
  missing : ∀ visited id, Trail graph params visited id → graph.get? id = none →
    (run graph params seed).result = .error (.missingNode id)

/-- A run visits no more nodes than are stored, and it tells of those that the walk visits. A walk that comes back to a
node is called a cycle. The faults name what is wrong exactly if the walk does not run off the graph; if it does, it is
called a cycle too. -/
theorem run_diagnosed_iff (graph : Graph) (params : Params) (seed : UInt64) :
    (Diagnosed graph params seed ↔ ∀ id, ¬ RunsOff graph params id) ∧
      (∀ id, RunsOff graph params id → (run graph params seed).result = .error (.cycle id)) ∧
      (ComesBack graph params → ∃ id, (run graph params seed).result = .error (.cycle id)) ∧
      (visitedIds (run graph params seed).notices).length ≤ graph.size ∧
      ∀ visited id, Trail graph params visited id → visited.length ≤ graph.size →
        visited <+: visitedIds (run graph params seed).notices := by
  have bounded := length_visitedIds_walk graph params graph.size Graph.entry ⟨.empty, .ofSeed seed⟩
  refine ⟨⟨fun diagnosed id runsOff => ?_, fun stays => ⟨bounded, fun id called => ?_, ?_⟩⟩,
    fun id runsOff => runsOff.result_run seed, fun comesBack => comesBack.result_run seed, bounded,
    fun visited id trail fits => trail.isPrefix_visitedIds fits seed⟩
  · have called := runsOff.result_run seed
    obtain ⟨visited, trail, _, missing⟩ := runsOff
    cases called.symm.trans (diagnosed.missing visited id trail missing)
  · obtain ⟨visited, trail, all⟩ := result_run_eq_cycle_iff.mp called
    exact (trail.comesBack_or_runsOff all).resolve_right (stays id)
  · intro visited id trail missing
    exact (trail.result_run_or_runsOff missing seed).resolve_right (stays id)

/-- A documentation node whose child is not stored. -/
def loneNode : Graph :=
  Graph.empty.insert Graph.entry ⟨.documentation "a", [3]⟩

/-- The walk from a lone node steps to a child that is not stored and is called a cycle. -/
theorem not_diagnosed_loneNode : ¬ ∀ graph params seed, Diagnosed graph params seed := by
  intro diagnosed
  have goes : GoesTo loneNode .empty Graph.entry 3 :=
    ⟨⟨.documentation "a", [3]⟩, ⟨.empty, .ofSeed 0⟩, _, by decide +kernel, rfl⟩
  have named := (diagnosed loneNode .empty 0).missing [Graph.entry] 3 (Trail.start.visit goes) (by decide +kernel)
  have called : (run loneNode .empty 0).result = .error (.cycle 3) := by cbv
  cases named.symm.trans called

end MissionGraph.Play
