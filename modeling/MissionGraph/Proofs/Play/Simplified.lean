import Mathlib
import MissionGraph.Outline.Tests
import MissionGraph.Proofs.Graph.Simplification
import MissionGraph.Proofs.Play.Selection

/-!
# Walks through simplified graphs

Simplifying a graph takes forwarding nodes away. A walk through the simplified graph skips them, and what
it carries is the same, since they add nothing. A test for groups looks at its two children, however: if one
of them forwards to a node that names a group, the simplified graph tests for that group and the graph
itself does not. Apart from such tests all walks give the same report.
-/

namespace MissionGraph

open Mission (Data Factions)
open Outline (offerGroup?)
open Play (Params Report Traveller Turn Decides chooseOffer chooseWay decideGroup offerGroupAt run visit walk)
open Relation

namespace Graph

variable {graph result : Graph} {place : NodeId → NodeId} {id : NodeId} {node : Node}

/-- The node forwards, over any count of forwarding nodes, to one that names an offering group. -/
def HidesGroup (graph : Graph) (id : NodeId) : Prop :=
  ∃ key, TransGen graph.ForwardsTo id key ∧ (offerGroup? graph key).isSome = true

/-- A test for groups between two children looks at the same groups before and after forwarding nodes are
taken away. What the second child hides does not matter if the first one names no group. -/
def SteadyTest (graph : Graph) (one two : NodeId) : Prop :=
  ¬ graph.HidesGroup one ∧ ((offerGroup? graph one).isSome = true → ¬ graph.HidesGroup two)

/-- Every test for groups that the entry reaches is steady. -/
def Steady (graph : Graph) : Prop :=
  ∀ id nickname one two, graph.Reaches entry id → graph.get? id = some ⟨.decision nickname, [one, two]⟩ →
    isBranch nickname = true → graph.SteadyTest one two

theorem offerGroup?_of_get? (found : graph.get? id = some node) :
    offerGroup? graph id = (node.data?.bind Data.offerGroup).filter fun factions => !factions.isEmpty := by
  rw [offerGroup?, found, Option.bind_eq_bind, Option.bind_some]
  cases node.data? <;> rfl

/-- The factions that a node names are not empty. -/
theorem isEmpty_of_offerGroup? {factions : Factions} (named : offerGroup? graph id = some factions) :
    factions.isEmpty = false := by
  cases found : graph.get? id with
  | none =>
      rw [offerGroup?, found] at named
      cases named
  | some node =>
      rw [offerGroup?_of_get? found] at named
      simpa using (Option.filter_eq_some_iff.mp named).2

/-- A forwarding node names no group. -/
theorem ForwardsTo.offerGroup?_eq_none {child : NodeId} (forwards : graph.ForwardsTo id child) :
    offerGroup? graph id = none := by
  obtain ⟨⟨content, children⟩, found, isForwarding⟩ := forwards
  obtain ⟨data, rfl, isEmpty, _⟩ := Node.forwardsTo?_eq_some_iff.mp isForwarding
  rw [offerGroup?_of_get? found]
  simp only [Data.isEmpty, Data.hasFields, Bool.and_eq_true, Bool.not_eq_true', Bool.or_eq_false_iff] at isEmpty
  cases offered : data.offerGroup with
  | none => simp [Node.data?, offered]
  | some factions =>
      rw [offered] at isEmpty
      simp_all [Node.data?]

theorem hidesGroup_iff_of_forwardsTo {child : NodeId} (forwards : graph.ForwardsTo id child) :
    graph.HidesGroup id ↔ (offerGroup? graph child).isSome = true ∨ graph.HidesGroup child := by
  constructor
  · rintro ⟨key, path, named⟩
    obtain ⟨next, first, rest⟩ := TransGen.head'_iff.mp path
    rw [first.functional forwards] at rest
    rcases reflTransGen_iff_eq_or_transGen.mp rest with rfl | further
    · exact .inl named
    · exact .inr ⟨key, further, named⟩
  · rintro (named | ⟨key, path, named⟩)
    · exact ⟨child, .single forwards, named⟩
    · exact ⟨key, .head forwards path, named⟩

theorem not_hidesGroup_of_stays (found : graph.get? id = some node) (stays : node.forwardsTo? = none) :
    ¬ graph.HidesGroup id := by
  rintro ⟨_, path, _⟩
  obtain ⟨_, ⟨again, foundAgain, forwards⟩, _⟩ := TransGen.head'_iff.mp path
  rw [found] at foundAgain
  cases foundAgain
  rw [stays] at forwards
  cases forwards

namespace Folds

/-- A node that is kept names the same group afterwards. -/
theorem offerGroup?_of_stays (folds : Folds graph result place) (reached : graph.Reaches Graph.entry id)
    (found : graph.get? id = some node) (stays : node.forwardsTo? = none) :
    offerGroup? result (place id) = offerGroup? graph id := by
  rw [offerGroup?_of_get? (folds.get?_of_kept reached found stays), offerGroup?_of_get? found]
  rfl

/-- What is put in the place of a node names a group exactly if the node does or hides one. -/
theorem isSome_offerGroup?_iff (folds : Folds graph result place) (proper : graph.Proper) (folded : result.Folded)
    (reached : graph.Reaches Graph.entry id) :
    (offerGroup? result (place id)).isSome = true ↔
      (offerGroup? graph id).isSome = true ∨ graph.HidesGroup id := by
  induction id using proper.acyclic.induction with
  | step id ih =>
      obtain ⟨node, found⟩ := proper.stored reached
      cases isForwarding : node.forwardsTo? with
      | none =>
          rw [folds.offerGroup?_of_stays reached found isForwarding]
          exact (or_iff_left (not_hidesGroup_of_stays found isForwarding)).symm
      | some child =>
          have forwards : graph.ForwardsTo id child := ⟨node, found, isForwarding⟩
          obtain ⟨_, _, _, childrenEq⟩ := Node.forwardsTo?_eq_some_iff.mp isForwarding
          have edge : graph.Child id child := child_of_get? found (by simp [childrenEq])
          rw [folds.place_eq_of_forwards folded reached found isForwarding, ih child edge (reached.tail edge),
            forwards.offerGroup?_eq_none, hidesGroup_iff_of_forwardsTo forwards]
          simp

/-- Where nothing is hidden, the same group is named afterwards. -/
theorem offerGroup?_eq (folds : Folds graph result place) (proper : graph.Proper) (folded : result.Folded)
    (reached : graph.Reaches Graph.entry id) (open_ : ¬ graph.HidesGroup id) :
    offerGroup? result (place id) = offerGroup? graph id := by
  obtain ⟨node, found⟩ := proper.stored reached
  cases isForwarding : node.forwardsTo? with
  | none => exact folds.offerGroup?_of_stays reached found isForwarding
  | some child =>
      have none_before := ForwardsTo.offerGroup?_eq_none ⟨node, found, isForwarding⟩
      have none_after := (not_congr (folds.isSome_offerGroup?_iff proper folded reached)).mpr
        (by simp [none_before, open_])
      rw [none_before, Option.not_isSome_iff_eq_none.mp none_after]

end Folds

end Graph

namespace Play

variable {graph result : Graph} {place : NodeId → NodeId} {params : Params}

/-! ## The ways out of a decision -/

/-- The way that a test for groups takes, given the groups that its two children name. -/
def groupWay (params : Params) (first second : Option Factions) (one two : NodeId) : Option NodeId :=
  match first with
  | none => none
  | some factions =>
      if params.matches factions then some one
      else if second.all params.matches then some two
      else none

theorem offerGroupAt_eq {id : NodeId} {node : Node} (found : graph.get? id = some node) :
    offerGroupAt graph id = .ok (offerGroup? graph id) := by
  rw [offerGroupAt_of_get? found, Graph.offerGroup?_of_get? found]

theorem decideGroup_eq {id one two : NodeId} {oneNode twoNode : Node} (foundOne : graph.get? one = some oneNode)
    (foundTwo : graph.get? two = some twoNode) :
    ∃ notices, decideGroup graph params id one two =
      .ok (notices, groupWay params (offerGroup? graph one) (offerGroup? graph two) one two) ∧
        visitedIds notices = [] := by
  unfold decideGroup groupWay
  rw [offerGroupAt_eq foundOne, offerGroupAt_eq foundTwo]
  simp only [Success.ok_bind]
  cases offerGroup? graph one with
  | none => exact ⟨_, rfl, rfl⟩
  | some factions =>
      dsimp only
      split
      · exact ⟨_, rfl, rfl⟩
      · cases offerGroup? graph two with
        | none => exact ⟨_, rfl, rfl⟩
        | some others =>
            simp only [Option.all_some]
            split <;> exact ⟨_, rfl, rfl⟩

/-- The way that a decision takes. -/
def wayOf (graph : Graph) (params : Params) (nickname : String) (one two : NodeId) : Option NodeId :=
  if isBranch nickname then groupWay params (offerGroup? graph one) (offerGroup? graph two) one two
  else some (decideNamed params nickname one two).2

theorem chooseWay_eq (params : Params) (id : NodeId) (nickname : String) {one two : NodeId} {oneNode twoNode : Node}
    (foundOne : graph.get? one = some oneNode) (foundTwo : graph.get? two = some twoNode) :
    ∃ notices, chooseWay graph params id nickname [one, two] =
      .ok (notices, wayOf graph params nickname one two) ∧ visitedIds notices = [] := by
  rw [chooseWay, wayOf]
  split
  · exact decideGroup_eq foundOne foundTwo
  · refine ⟨_, rfl, ?_⟩
    rcases params.condition? nickname with _ | _ | _ <;> rfl

theorem decides_iff (params : Params) {id one two : NodeId} {nickname : String} (closed : graph.Closed)
    (found : graph.get? id = some ⟨.decision nickname, [one, two]⟩) {way : Option NodeId} :
    Decides graph params id way ↔ way = wayOf graph params nickname one two := by
  obtain ⟨oneNode, foundOne⟩ := closed id one (Graph.child_of_get? found List.mem_cons_self)
  obtain ⟨twoNode, foundTwo⟩ :=
    closed id two (Graph.child_of_get? found (List.mem_cons_of_mem _ List.mem_cons_self))
  obtain ⟨notices, chosen, silent⟩ := chooseWay_eq params id nickname foundOne foundTwo
  constructor
  · rintro ⟨_, _, told, foundAgain, chosenAgain, _⟩
    rw [found] at foundAgain
    cases foundAgain
    rw [chosen] at chosenAgain
    cases chosenAgain
    rfl
  · rintro rfl
    exact ⟨nickname, [one, two], notices, found, chosen, silent⟩

/-- Somebody is offered the mission by a group that lists a faction. -/
theorem exists_matches {factions : Factions} (nonempty : factions.isEmpty = false) :
    ∃ params : Params, params.matches factions = true := by
  obtain ⟨names⟩ := factions
  cases names with
  | nil => cases nonempty
  | cons name others =>
      refine ⟨⟨some name, []⟩, ?_⟩
      have itself : Text.sameLetters name name = true := (Text.sameLetters_iff _ _).mpr rfl
      simp [Params.matches, Factions.includes, itself]

/-- A test for groups takes the same way for all parameters exactly if the first child names the same group
as before, and so does the second one unless the first names none. -/
theorem groupWay_eq_iff {one two : NodeId} {first second laterFirst laterSecond : Option Factions}
    (someFirst : ∀ factions ∈ laterFirst, factions.isEmpty = false)
    (kept : first.isSome = true → laterFirst = first) (keptSecond : second.isSome = true → laterSecond = second) :
    (∀ params, groupWay params laterFirst laterSecond (place one) (place two) =
        (groupWay params first second one two).map place) ↔
      laterFirst = first ∧ (first.isSome = true → laterSecond = second) := by
  constructor
  · intro same
    have sameFirst : laterFirst = first := by
      cases first with
      | some factions => exact kept rfl
      | none =>
          cases laterFirst with
          | none => rfl
          | some factions =>
              obtain ⟨params, isOffered⟩ := exists_matches (someFirst factions rfl)
              have ways := same params
              simp [groupWay, isOffered] at ways
    refine ⟨sameFirst, fun isNamed => ?_⟩
    cases second with
    | some others => exact keptSecond rfl
    | none =>
        cases laterSecond with
        | none => rfl
        | some others =>
            -- without an offering faction the walk took the second way, and now it takes none
            obtain ⟨factions, rfl⟩ := Option.isSome_iff_exists.mp isNamed
            have ways := same .empty
            rw [sameFirst] at ways
            simp [groupWay, Params.matches, Params.empty] at ways
  · rintro ⟨rfl, sameSecond⟩ params
    cases laterFirst with
    | none => rfl
    | some factions =>
        rw [sameSecond rfl]
        unfold groupWay
        dsimp only
        split
        · rfl
        · split <;> rfl

theorem place_decideNamed (params : Params) (nickname : String) (one two : NodeId) :
    (decideNamed params nickname (place one) (place two)).2 = place (decideNamed params nickname one two).2 := by
  unfold decideNamed
  split <;> rfl

/-- A decision takes the same way in a folded graph for all parameters exactly if it is no test for groups
or a steady one. -/
theorem wayOf_eq_iff (folds : graph.Folds result place) (proper : graph.Proper) (folded : result.Folded)
    {one two : NodeId} {nickname : String} (reachedOne : graph.Reaches Graph.entry one)
    (reachedTwo : graph.Reaches Graph.entry two) :
    (∀ params, wayOf result params nickname (place one) (place two) =
        (wayOf graph params nickname one two).map place) ↔
      (isBranch nickname = true → graph.SteadyTest one two) := by
  unfold wayOf
  cases isTest : isBranch nickname with
  | false => simp [place_decideNamed]
  | true =>
      have same {id : NodeId} (reached : graph.Reaches Graph.entry id) :
          offerGroup? result (place id) = offerGroup? graph id ↔ ¬ graph.HidesGroup id := by
        refine ⟨fun equal hides => ?_, folds.offerGroup?_eq proper folded reached⟩
        have named := (folds.isSome_offerGroup?_iff proper folded reached).mpr (.inr hides)
        obtain ⟨key, path, _⟩ := hides
        obtain ⟨_, forwards, _⟩ := TransGen.head'_iff.mp path
        rw [equal, forwards.offerGroup?_eq_none] at named
        cases named
      have kept {id : NodeId} (reached : graph.Reaches Graph.entry id)
          (isNamed : (offerGroup? graph id).isSome = true) : offerGroup? result (place id) = offerGroup? graph id := by
        refine (same reached).mpr ?_
        rintro ⟨key, path, _⟩
        obtain ⟨_, forwards, _⟩ := TransGen.head'_iff.mp path
        rw [forwards.offerGroup?_eq_none] at isNamed
        cases isNamed
      simp only [if_true, forall_const]
      rw [groupWay_eq_iff (fun factions named => Graph.isEmpty_of_offerGroup? named) (kept reachedOne)
        (kept reachedTwo), same reachedOne, same reachedTwo]
      rfl

/-! ## Walks -/

/-- What follows a visit, with the numbers of another graph. -/
def Turn.renumber (place : NodeId → NodeId) : Turn → Turn
  | .goOn id traveller => .goOn (place id) traveller
  | turn => turn

theorem goAhead_map (traveller : Traveller) (children : List NodeId) :
    traveller.goAhead (children.map place) = (traveller.goAhead children).renumber place := by
  cases children <;> rfl

/-- The result of a walk by what follows its first visit. -/
theorem result_walk {visits : Nat} {id : NodeId} {node : Node} (found : graph.get? id = some node)
    (traveller : Traveller) :
    (walk graph params (visits + 1) id traveller).result =
      match (visit graph params id node traveller).2 with
      | .fault fault => .error fault
      | .finish report => .ok report
      | .goOn next later => (walk graph params visits next later).result := by
  rw [walk, found]
  dsimp only
  split <;> simp_all [Outcome.after]

/-- An empty node adds nothing to what a walk carries. -/
theorem takeData_of_isEmpty (traveller : Traveller) {data : Data} (isEmpty : data.isEmpty = true) :
    traveller.takeData data = traveller := by
  simp only [Data.isEmpty, Data.hasFields, Bool.and_eq_true, Bool.not_eq_true', Bool.or_eq_false_iff,
    Option.isSome_eq_false_iff, Option.isNone_iff_eq_none, Bool.not_eq_false', List.isEmpty_iff] at isEmpty
  obtain ⟨_, ⟨⟨⟨⟨⟨_, noFailure⟩, noReward⟩, noObjective⟩, noOffer⟩, noComm⟩⟩ := isEmpty
  simp [Traveller.takeData, noOffer, chooseOffer, Report.addData, noReward, noFailure, noObjective, noComm]

/-- A forwarding node only costs a visit. -/
theorem result_walk_of_forwardsTo {visits : Nat} {id child : NodeId} (forwards : graph.ForwardsTo id child)
    (traveller : Traveller) :
    (walk graph params (visits + 1) id traveller).result = (walk graph params visits child traveller).result := by
  obtain ⟨⟨content, children⟩, found, isForwarding⟩ := forwards
  obtain ⟨data, rfl, isEmpty, rfl⟩ := Node.forwardsTo?_eq_some_iff.mp isForwarding
  have implemented : data.implemented = true := (Bool.and_eq_true_iff.mp isEmpty).1
  rw [result_walk found, visit]
  dsimp only
  rw [if_pos implemented, takeData_of_isEmpty traveller isEmpty]
  rfl

/-- A visit to a node with new numbers goes on under the new numbers, if a decision takes the same way. -/
theorem visit_renumber {id : NodeId} {content : Content} {children : List NodeId}
    (found : graph.get? id = some ⟨content, children⟩) (closed : graph.Closed)
    (foundLater : result.get? (place id) = some ⟨content, children.map place⟩) (closedLater : result.Closed)
    (sound : Node.Sound ⟨content, children⟩)
    (sameWay : ∀ nickname one two, content = .decision nickname → children = [one, two] →
      wayOf result params nickname (place one) (place two) = (wayOf graph params nickname one two).map place)
    (traveller : Traveller) :
    (visit result params (place id) ⟨content, children.map place⟩ traveller).2 =
      (visit graph params id ⟨content, children⟩ traveller).2.renumber place := by
  unfold visit
  cases content with
  | documentation text => exact goAhead_map _ children
  | data data =>
      dsimp only
      split
      · exact goAhead_map _ children
      · rfl
  | choice conditions => exact False.elim sound
  | decision nickname =>
      obtain ⟨one, two, rfl⟩ := List.length_eq_two.mp (show children.length = 2 from sound)
      obtain ⟨_, _, told, foundAgain, chosen, _⟩ := (decides_iff params closed found).mpr rfl
      obtain ⟨_, _, toldLater, foundLaterAgain, chosenLater, _⟩ :=
        (decides_iff params closedLater foundLater).mpr rfl
      rw [found] at foundAgain
      cases foundAgain
      rw [foundLater] at foundLaterAgain
      cases foundLaterAgain
      dsimp only
      rw [chosen, chosenLater, sameWay nickname one two rfl rfl]
      cases wayOf graph params nickname one two <;> rfl

/-- From a node on, the walks through a steady graph and through what it is folded to give the same
result, if both may visit all nodes ahead. -/
theorem result_walk_folds (params : Params) (folds : graph.Folds result place) (proper : graph.Proper) (folded : result.Folded)
    (properLater : result.Proper) (sound : ∀ id node, graph.get? id = some node → node.Sound)
    (steady : graph.Steady) {id : NodeId} (reached : graph.Reaches Graph.entry id) {visits visitsLater : Nat}
    (enough : (graph.reachable id).length ≤ visits)
    (enoughLater : (result.reachable (place id)).length ≤ visitsLater) (traveller : Traveller) :
    (walk result params visitsLater (place id) traveller).result =
      (walk graph params visits id traveller).result := by
  -- by induction from the children of a node to the node itself
  induction id using proper.acyclic.induction generalizing visits visitsLater traveller with
  | step id ih =>
      obtain ⟨⟨content, children⟩, found⟩ := proper.stored reached
      have here : id ∈ graph.reachable id := Graph.mem_reachable_iff.mpr .refl
      have hereLater : place id ∈ result.reachable (place id) := Graph.mem_reachable_iff.mpr .refl
      obtain ⟨visits, rfl⟩ := Nat.exists_eq_succ_of_ne_zero
        (Nat.ne_of_gt (Nat.lt_of_lt_of_le (List.length_pos_of_mem here) enough))
      obtain ⟨visitsLater, rfl⟩ := Nat.exists_eq_succ_of_ne_zero
        (Nat.ne_of_gt (Nat.lt_of_lt_of_le (List.length_pos_of_mem hereLater) enoughLater))
      have fewer {child : NodeId} (edge : graph.Child id child) : (graph.reachable child).length ≤ visits :=
        Nat.le_of_lt_succ (Nat.lt_of_lt_of_le (proper.acyclic.length_reachable_lt edge) enough)
      rcases folds.node id _ reached found with ⟨child, forwards, samePlace⟩ | stored
      · obtain ⟨_, _, _, rfl⟩ := Node.forwardsTo?_eq_some_iff.mp forwards
        have edge : graph.Child id child := Graph.child_of_get? found List.mem_cons_self
        rw [result_walk_of_forwardsTo ⟨_, found, forwards⟩, samePlace]
        exact ih child edge (reached.tail edge) (fewer edge) (samePlace ▸ enoughLater) traveller
      · have sameWay (nickname : String) (one two : NodeId) (isDecision : content = .decision nickname)
            (areChildren : children = [one, two]) :
            wayOf result params nickname (place one) (place two) =
              (wayOf graph params nickname one two).map place := by
          subst isDecision areChildren
          have reachedOne := reached.tail (Graph.child_of_get? found List.mem_cons_self)
          have reachedTwo :=
            reached.tail (Graph.child_of_get? found (List.mem_cons_of_mem _ List.mem_cons_self))
          exact (wayOf_eq_iff folds proper folded reachedOne reachedTwo).mpr
            (steady id nickname one two reached found) params
        have safe := visit_safe params proper.closed found (sound id _ found) traveller
        rw [result_walk found, result_walk stored,
          visit_renumber found proper.closed stored properLater.closed (sound id _ found) sameWay]
        revert safe
        generalize (visit graph params id ⟨content, children⟩ traveller).2 = turn
        intro safe
        cases safe with
        | finish report => rfl
        | goOn next traveller edge =>
            obtain ⟨_, foundAgain, member⟩ := Graph.child_iff.mp edge
            rw [found] at foundAgain
            cases foundAgain
            have edgeLater : result.Child (place id) (place next) :=
              Graph.child_of_get? stored (List.mem_map_of_mem member)
            exact ih next edge (reached.tail edge) (fewer edge) (Nat.le_of_lt_succ (Nat.lt_of_lt_of_le
              (properLater.acyclic.length_reachable_lt edgeLater) enoughLater)) traveller

end Play

/-- Simplifying keeps all walks through a steady graph. A decision takes the same way before and after for
all parameters exactly if it does not test for groups, or if forwarding from its children does not lead to
nodes that name further groups; if that is so at all decisions, all walks give the same report. -/
theorem simplify_keeps_walks {graph : Graph} (proper : graph.Proper)
    (sound : ∀ id node, graph.get? id = some node → node.Sound) :
    ∃ place, graph.Folds graph.simplify place ∧
      (∀ id nickname one two, graph.Reaches Graph.entry id →
        graph.get? id = some ⟨.decision nickname, [one, two]⟩ →
        ((∀ params way, Decides graph params id way → Decides graph.simplify params (place id) (way.map place)) ↔
          (isBranch nickname = true → graph.SteadyTest one two))) ∧
      (graph.Steady → ∀ params seed,
        (run graph.simplify params seed).result = (run graph params seed).result) := by
  obtain ⟨place, folds⟩ := Graph.exists_folds_simplify proper
  have properLater := proper.simplify
  have folded := Graph.folded_simplify proper
  refine ⟨place, folds, ?_, ?_⟩
  · intro id nickname one two reached found
    have edgeOne := Graph.child_of_get? found List.mem_cons_self
    have edgeTwo := Graph.child_of_get? found (List.mem_cons_of_mem _ List.mem_cons_self)
    have foundLater := folds.get?_of_kept reached found rfl
    rw [← Play.wayOf_eq_iff folds proper folded (reached.tail edgeOne) (reached.tail edgeTwo)]
    refine forall_congr' fun params => ?_
    simp only [Play.decides_iff params proper.closed found, forall_eq]
    rw [Play.decides_iff params properLater.closed foundLater]
    exact eq_comm
  · intro steady params seed
    have walks := Play.result_walk_folds params folds proper folded properLater sound steady .refl
      (Play.length_reachable_le proper) (folds.entry.symm ▸ Play.length_reachable_le properLater)
      ⟨.empty, .ofSeed seed⟩
    rw [folds.entry] at walks
    exact walks

/-- A test for groups whose second way leads over an empty node. -/
def openFork : Graph :=
  Graph.empty
    |>.insert 2 ⟨.decision "branch", [3, 4]⟩
    |>.insert 3 ⟨.data (.offeredBy ⟨["a"]⟩), [5]⟩
    |>.insert 4 ⟨.data .empty, [5]⟩
    |>.insert 5 ⟨.documentation "end", []⟩

/-- The empty node of the fork can be taken away. -/
theorem simplify_keeps_walks_openFork :
    openFork.simplify.get? 4 = none ∧
      ∀ params seed, (run openFork.simplify params seed).result = (run openFork params seed).result := by
  have nodeAt {id : NodeId} {node : Node} (found : openFork.get? id = some node) :
      id = 2 ∧ node = ⟨.decision "branch", [3, 4]⟩ ∨ id = 3 ∧ node = ⟨.data (.offeredBy ⟨["a"]⟩), [5]⟩ ∨
        id = 4 ∧ node = ⟨.data .empty, [5]⟩ ∨ id = 5 ∧ node = ⟨.documentation "end", []⟩ := by
    have listed : openFork.toList = [(2, ⟨.decision "branch", [3, 4]⟩), (3, ⟨.data (.offeredBy ⟨["a"]⟩), [5]⟩),
        (4, ⟨.data .empty, [5]⟩), (5, ⟨.documentation "end", []⟩)] := by decide +kernel
    simpa only [listed, List.mem_cons, List.not_mem_nil, or_false, Prod.mk.injEq] using Graph.mem_toList_iff.mpr found
  have proper : openFork.Proper := by
    refine ⟨⟨_, rfl⟩, ?_, Graph.findCycle?_eq_none_iff.mp (by decide +kernel)⟩
    intro parent child edge
    obtain ⟨node, found, member⟩ := Graph.child_iff.mp edge
    have within : child ∈ [3, 4, 5] := by
      rcases nodeAt found with ⟨rfl, rfl⟩ | ⟨rfl, rfl⟩ | ⟨rfl, rfl⟩ | ⟨rfl, rfl⟩ <;> revert member <;> simp +contextual
      exact fun member => member.imp_right .inl
    exact Graph.contains_iff.mp ((by decide +kernel : ∀ id ∈ [3, 4, 5], openFork.contains id = true) child within)
  have sound (id : NodeId) (node : Node) (found : openFork.get? id = some node) : node.Sound := by
    rcases nodeAt found with ⟨rfl, rfl⟩ | ⟨rfl, rfl⟩ | ⟨rfl, rfl⟩ | ⟨rfl, rfl⟩
    · exact rfl
    all_goals trivial
  have steady : openFork.Steady := by
    intro id nickname one two _ found _
    rcases nodeAt found with ⟨rfl, same⟩ | ⟨rfl, ⟨⟩⟩ | ⟨rfl, ⟨⟩⟩ | ⟨rfl, ⟨⟩⟩
    cases same
    refine ⟨Graph.not_hidesGroup_of_stays rfl rfl, fun _ hides => ?_⟩
    have forwards : openFork.ForwardsTo 4 5 := ⟨_, rfl, rfl⟩
    rcases (Graph.hidesGroup_iff_of_forwardsTo forwards).mp hides with named | hides
    · cases named
    · exact Graph.not_hidesGroup_of_stays rfl rfl hides
  obtain ⟨_, _, _, same⟩ := simplify_keeps_walks proper sound
  exact ⟨by cbv, same steady⟩

/-- A test for groups whose first way leads over an empty node to one that names a group. -/
def veiledFork : Graph :=
  Graph.empty
    |>.insert 2 ⟨.decision "branch", [3, 5]⟩
    |>.insert 3 ⟨.data .empty, [4]⟩
    |>.insert 4 ⟨.data (.offeredBy ⟨["a"]⟩), []⟩
    |>.insert 5 ⟨.documentation "end", []⟩

/-- A walk through the fork as it is fails at the test; after simplifying it passes the test. -/
theorem not_simplify_keeps_walks :
    veiledFork.findCycle? = none ∧
      ((run veiledFork .empty 0).result.toOption.map fun report => (report.failed, report.documentation)) =
        some (true, []) ∧
      ((run veiledFork.simplify .empty 0).result.toOption.map fun report =>
        (report.failed, report.documentation)) = some (false, ["end"]) := by
  refine ⟨by decide +kernel, by decide +kernel, by cbv⟩

end MissionGraph
