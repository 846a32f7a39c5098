import MissionGraph.Proofs.Play.Simplified

/-!
# What walks know of their parameters

The offering faction and the conditions count up to letter case, and neither the order in which conditions were made
true nor how often matters. Two walks through one graph with such parameters stay in step: they come to the same nodes
with the same reports and the same dice. Nothing else is forgotten: a graph with one decision tells any other
parameters apart, except by the condition that has the nickname of a test for groups, which no decision can ask for.
-/

namespace MissionGraph.Play

open Mission (Factions)

variable {first second : Params} {graph : Graph} {id : NodeId}

/-- The parameters after conditions were made true one after the other. -/
def Params.ofNames (offerGroup : Option String) (names : List String) : Params :=
  names.foldl set { empty with offerGroup }

/-- The faction and the conditions that a decision can ask for are the same up to letter case. -/
structure Params.Alike (first second : Params) : Prop where
  offerGroup : first.offerGroup.map String.toLower = second.offerGroup.map String.toLower
  conditions : ∀ name, isBranch name = false →
    (name.toLower ∈ first.conditions.map String.toLower ↔ name.toLower ∈ second.conditions.map String.toLower)

namespace Params

theorem foldl_set (params : Params) (names : List String) :
    names.foldl set params = ⟨params.offerGroup, names.reverse ++ params.conditions⟩ := by
  induction names generalizing params with
  | nil => rfl
  | cons name names ih => rw [List.foldl_cons, ih, set, List.reverse_cons, List.append_assoc, List.singleton_append]

theorem ofNames_eq (offerGroup : Option String) (names : List String) :
    ofNames offerGroup names = ⟨offerGroup, names.reverse⟩ := by
  rw [ofNames, foldl_set, empty, List.append_nil]

theorem listed_iff (names : List String) (name : String) :
    listed names name = true ↔ name.toLower ∈ names.map String.toLower := by
  simp only [listed, List.any_eq_true, Text.sameLetters_iff, List.mem_map]

theorem matches_iff (params : Params) (factions : Factions) :
    params.matches factions = true ↔
      ∃ faction ∈ params.offerGroup.map String.toLower, faction ∈ factions.names.map String.toLower := by
  simp only [Params.matches, Option.any_eq_true, Factions.includes, List.any_eq_true, Text.sameLetters_iff,
    Option.mem_def, Option.map_eq_some_iff, List.mem_map]
  constructor
  · rintro ⟨faction, offers, name, member, same⟩
    exact ⟨_, ⟨faction, offers, rfl⟩, name, member, same⟩
  · rintro ⟨_, ⟨faction, offers, rfl⟩, name, member, same⟩
    exact ⟨faction, offers, name, member, same⟩

namespace Alike

theorem matches_eq (alike : first.Alike second) (factions : Factions) :
    first.matches factions = second.matches factions := by
  rw [Bool.eq_iff_iff, matches_iff, matches_iff, alike.offerGroup]

theorem condition?_eq (alike : first.Alike second) {name : String} (askable : isBranch name = false) :
    first.condition? name = second.condition? name := by
  have same : listed first.conditions name = listed second.conditions name := by
    rw [Bool.eq_iff_iff, listed_iff, listed_iff]
    exact alike.conditions name askable
  rw [condition?, condition?, same]

end Alike

end Params

/-! ## Two walks in step -/

/-- A test for groups takes the same way, though it may spell the faction otherwise when it finds none. -/
theorem way_decideGroup_eq (alike : first.Alike second) (one two : NodeId) :
    (decideGroup graph first id one two).map Prod.snd = (decideGroup graph second id one two).map Prod.snd := by
  unfold decideGroup
  cases offerGroupAt graph one with
  | error fault => rfl
  | ok named =>
      rw [Success.ok_bind, Success.ok_bind]
      cases named with
      | none => rfl
      | some factions =>
          dsimp only
          rw [alike.matches_eq factions]
          split
          · rfl
          · cases offerGroupAt graph two with
            | error fault => rfl
            | ok others =>
                rw [Success.ok_bind, Success.ok_bind]
                cases others with
                | none => rfl
                | some others =>
                    dsimp only
                    rw [alike.matches_eq others]
                    split <;> rfl

theorem way_chooseWay_eq (alike : first.Alike second) (nickname : String) (children : List NodeId) :
    (chooseWay graph first id nickname children).map Prod.snd =
      (chooseWay graph second id nickname children).map Prod.snd := by
  unfold chooseWay
  split
  · cases isTest : isBranch nickname with
    | true => exact way_decideGroup_eq alike _ _
    | false => simp only [decideNamed, alike.condition?_eq isTest, Bool.false_eq_true, if_false]
  · rfl

/-- What follows a visit to a decision is known from the way out of it. -/
theorem turn_visit_decision (params : Params) (nickname : String) (children : List NodeId) (traveller : Traveller) :
    (visit graph params id ⟨.decision nickname, children⟩ traveller).2 =
      match (chooseWay graph params id nickname children).map Prod.snd with
      | .error fault => .fault fault
      | .ok none => .finish traveller.report.fail
      | .ok (some next) => .goOn next traveller := by
  unfold visit
  dsimp only
  rcases chooseWay graph params id nickname children with fault | ⟨notices, _ | next⟩ <;> rfl

/-- A visit with the same report and dice is followed by the same turn. -/
theorem turn_visit_eq (alike : first.Alike second) (node : Node) (traveller : Traveller) :
    (visit graph first id node traveller).2 = (visit graph second id node traveller).2 := by
  obtain ⟨content, children⟩ := node
  cases content with
  | decision nickname => rw [turn_visit_decision, turn_visit_decision, way_chooseWay_eq alike]
  | documentation text => rfl
  | data data => rfl
  | choice conditions => rfl

theorem result_walk_eq (alike : first.Alike second) (visits : Nat) (id : NodeId) (traveller : Traveller) :
    (walk graph first visits id traveller).result = (walk graph second visits id traveller).result := by
  induction visits generalizing id traveller with
  | zero => rfl
  | succ visits ih =>
      cases found : graph.get? id with
      | none => simp only [walk, found]
      | some node =>
          rw [result_walk found, result_walk found, turn_visit_eq alike]
          cases (visit graph second id node traveller).2 with
          | goOn next later => exact ih next later
          | finish report => rfl
          | fault fault => rfl

/-! ## Graphs that tell parameters apart -/

/-- A decision between a node for some factions and a documentation. -/
def fork (nickname : String) (factions : Factions) : Graph :=
  Graph.empty
    |>.insert 2 ⟨.decision nickname, [3, 4]⟩
    |>.insert 3 ⟨.data (.offeredBy factions), []⟩
    |>.insert 4 ⟨.documentation "second way", []⟩

theorem get?_fork (nickname : String) (factions : Factions) :
    (fork nickname factions).get? Graph.entry = some ⟨.decision nickname, [3, 4]⟩ ∧
      (fork nickname factions).get? 3 = some ⟨.data (.offeredBy factions), []⟩ ∧
      (fork nickname factions).get? 4 = some ⟨.documentation "second way", []⟩ := by
  simp [fork, Graph.get?_insert, Graph.entry]

theorem size_fork (nickname : String) (factions : Factions) : (fork nickname factions).size = 3 := by
  simp [fork, Graph.size, Graph.insert, Graph.empty, Std.ExtTreeMap.size_insert]

/-- What a walk through a fork reports after the first way and after the second. -/
def forkReport (first : Bool) : Report :=
  if first then .empty else Report.empty.addDocumentation "second way"

theorem forkReport_injective : forkReport.Injective := by
  intro one two same
  have sameTexts := congrArg Report.documentation same
  cases one <;> cases two <;> first | rfl | cases sameTexts

theorem result_run_fork {params : Params} {nickname : String} {factions : Factions} {holds : Bool}
    (way : (chooseWay (fork nickname factions) params Graph.entry nickname [3, 4]).map Prod.snd =
      .ok (some (if holds then 3 else 4))) (seed : UInt64) :
    (run (fork nickname factions) params seed).result = .ok (forkReport holds) := by
  obtain ⟨start, one, two⟩ := get?_fork nickname factions
  rw [run, size_fork, result_walk start, turn_visit_decision, way]
  cases holds with
  | true => exact result_walk one _
  | false => exact result_walk two _

theorem result_run_named {name : String} (askable : isBranch name = false) (params : Params) (seed : UInt64) :
    (run (fork name ⟨[]⟩) params seed).result = .ok (forkReport (listed params.conditions name)) := by
  apply result_run_fork
  simp only [chooseWay, askable, Bool.false_eq_true, if_false, decideNamed, Params.condition?, Except.map]
  cases listed params.conditions name with
  | true => rfl
  | false => cases listed knownConditions name <;> rfl

theorem result_run_group (faction : String) (params : Params) (seed : UInt64) :
    (run (fork branchNickname ⟨[faction]⟩) params seed).result = .ok (forkReport (params.matches ⟨[faction]⟩)) := by
  obtain ⟨_, one, two⟩ := get?_fork branchNickname ⟨[faction]⟩
  have isTest : isBranch branchNickname = true := (Text.sameLetters_iff _ _).mpr rfl
  have named : offerGroupAt (fork branchNickname ⟨[faction]⟩) 3 = .ok (some ⟨[faction]⟩) := offerGroupAt_of_get? one
  have unnamed : offerGroupAt (fork branchNickname ⟨[faction]⟩) 4 = .ok none := offerGroupAt_of_get? two
  apply result_run_fork
  rw [chooseWay, if_pos isTest, decideGroup, named, unnamed, Success.ok_bind, Success.ok_bind]
  cases isOffered : params.matches ⟨[faction]⟩ with
  | true => simp only [isOffered, if_true]; rfl
  | false => simp only [isOffered, Bool.false_eq_true, if_false]; rfl

/-- Parameters that every walk turns into the same result are alike. -/
theorem alike_of_results (same : ∀ graph seed, (run graph first seed).result = (run graph second seed).result) :
    first.Alike second := by
  constructor
  · have sameFaction (faction : String) : faction.toLower ∈ first.offerGroup.map String.toLower ↔
        faction.toLower ∈ second.offerGroup.map String.toLower := by
      have reports := same (fork branchNickname ⟨[faction]⟩) 0
      rw [result_run_group, result_run_group] at reports
      have matching := forkReport_injective (Except.ok.inj reports)
      rw [Bool.eq_iff_iff, Params.matches_iff, Params.matches_iff] at matching
      simpa using matching
    refine Option.ext fun lowered => ⟨fun offers => ?_, fun offers => ?_⟩
    · obtain ⟨faction, _, rfl⟩ := Option.map_eq_some_iff.mp offers
      exact (sameFaction faction).mp offers
    · obtain ⟨faction, _, rfl⟩ := Option.map_eq_some_iff.mp offers
      exact (sameFaction faction).mpr offers
  · intro name askable
    have reports := same (fork name ⟨[]⟩) 0
    rw [result_run_named askable, result_run_named askable] at reports
    have listing := forkReport_injective (Except.ok.inj reports)
    rw [Bool.eq_iff_iff, Params.listed_iff, Params.listed_iff] at listing
    exact listing

/-- Two walks have the same result in all graphs and for all seeds exactly if the factions are the same up to letter
case and, apart from the nickname of tests for groups, the conditions are, in whatever order they were made true and
however often. -/
theorem result_run_eq_iff (firstGroup secondGroup : Option String) (firstNames secondNames : List String) :
    (∀ (graph : Graph) (seed : UInt64), (run graph (.ofNames firstGroup firstNames) seed).result =
        (run graph (.ofNames secondGroup secondNames) seed).result) ↔
      firstGroup.map String.toLower = secondGroup.map String.toLower ∧
        ∀ name, isBranch name = false →
          (name.toLower ∈ firstNames.map String.toLower ↔ name.toLower ∈ secondNames.map String.toLower) := by
  simp only [Params.ofNames_eq]
  constructor
  · intro same
    have alike := alike_of_results same
    exact ⟨alike.offerGroup, by simpa only [List.map_reverse, List.mem_reverse] using alike.conditions⟩
  · rintro ⟨sameGroup, sameNames⟩ graph seed
    exact result_walk_eq ⟨sameGroup, by simpa only [List.map_reverse, List.mem_reverse] using sameNames⟩ _ _ _

end MissionGraph.Play
