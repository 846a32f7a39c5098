import MissionGraph.Proofs.Build.Program

/-!
# When construction fails

For every step that builds a graph, with which faults it fails and what it has built by then.
-/

namespace MissionGraph.Builder

open Mission (Field)
open Script (Block Cause Condition Fault Group Pos Statement)

variable {α β : Type} {before middle after : Builder} {pos : Pos} {parent child id : NodeId} {fault : Fault}

/-- The step fails on one builder with the fault and leaves the other one. -/
def Fails (step : Build α) (before : Builder) (fault : Fault) (after : Builder) : Prop :=
  step.run before = .error fault after

theorem not_fails_pure {value : α} : ¬ Fails (pure value) before fault after := by
  intro fails
  cases fails

theorem not_fails_get : ¬ Fails get before fault after := by
  intro fails
  cases fails

theorem not_fails_modify {change : Builder → Builder} : ¬ Fails (modify change) before fault after := by
  intro fails
  cases fails

theorem not_fails_modifyGraph {change : Graph → Graph} : ¬ Fails (modifyGraph change) before fault after :=
  not_fails_modify

theorem not_fails_addNode {content : Content} : ¬ Fails (addNode content) before fault after := by
  intro fails
  cases fails

theorem fails_fail_iff {cause : Cause} :
    Fails (fail pos cause : Build α) before fault after ↔ fault = ⟨pos, cause⟩ ∧ after = before := by
  constructor
  · intro fails
    cases fails
    exact ⟨rfl, rfl⟩
  · rintro ⟨rfl, rfl⟩
    rfl

/-- A composed step fails in its first part, or in its second part after the first has succeeded. -/
theorem fails_bind_iff {first : Build α} {next : α → Build β} :
    Fails (first >>= next) before fault after ↔
      Fails first before fault after ∨
        ∃ value middle, Runs first before value middle ∧ Fails (next value) middle fault after := by
  have unfolded : (first >>= next).run before = EStateM.bind first next before := rfl
  unfold Fails Runs
  rw [unfolded, EStateM.bind, EStateM.run]
  cases first before with
  | ok value middle =>
      constructor
      · intro fails
        exact .inr ⟨value, middle, rfl, fails⟩
      · rintro (impossible | ⟨_, _, same, fails⟩)
        · cases impossible
        · cases same
          exact fails
  | error met middle =>
      constructor
      · intro fails
        cases fails
        exact .inl rfl
      · rintro (fails | ⟨_, _, impossible, _⟩)
        · cases fails
          rfl
        · cases impossible

theorem fails_bind_of_runs {first : Build α} {next : α → Build β} {value : α} (runs : Runs first before value middle) :
    Fails (first >>= next) before fault after ↔ Fails (next value) middle fault after := by
  rw [fails_bind_iff]
  constructor
  · rintro (fails | ⟨_, _, again, fails⟩)
    · cases runs.symm.trans fails
    · cases runs.symm.trans again
      exact fails
  · intro fails
    exact .inr ⟨value, middle, runs, fails⟩

/-- A composed step whose first part fails has the fault of that part. -/
theorem exists_fails_bind_iff {first : Build α} {next : α → Build β} {met : Fault}
    (fails : Fails first before met middle) :
    (∃ after, Fails (first >>= next) before fault after) ↔ (.error met : Except Fault Unit) = .error fault := by
  constructor
  · rintro ⟨after, failsBind⟩
    rcases fails_bind_iff.mp failsBind with again | ⟨_, _, runs, _⟩
    · cases fails.symm.trans again
      rfl
    · cases fails.symm.trans runs
  · rintro ⟨⟩
    exact ⟨middle, fails_bind_iff.mpr (.inl fails)⟩

theorem fails_bind_pure_iff {step : Build α} {result : α → β} :
    Fails (step >>= fun value => pure (result value)) before fault after ↔ Fails step before fault after := by
  rw [fails_bind_iff]
  refine or_iff_left ?_
  rintro ⟨_, _, _, impossible⟩
  exact not_fails_pure impossible

/-- Nothing can be appended to the node: it is not stored, or both its ways are taken. -/
inductive Blocked (graph : Graph) (pos : Pos) (parent : NodeId) : Fault → Prop where
  | missing (missing : graph.get? parent = none) : Blocked graph pos parent ⟨pos, .missingNode parent⟩
  | full {node : Node} (found : graph.get? parent = some node) (full : ¬ node.Open) :
      Blocked graph pos parent ⟨pos, .continuesPastIf⟩

theorem fails_checkOpen_iff :
    Fails (checkOpen pos parent) before fault after ↔ Blocked before.graph pos parent fault ∧ after = before := by
  rw [checkOpen, fails_bind_of_runs (runs_get_iff.mpr ⟨rfl, rfl⟩)]
  cases found : before.graph.get? parent with
  | none =>
      refine fails_fail_iff.trans ⟨?_, ?_⟩
      · rintro ⟨rfl, rfl⟩
        exact ⟨.missing found, rfl⟩
      · rintro ⟨⟨_⟩ | ⟨foundSome, _⟩, rfl⟩
        · exact ⟨rfl, rfl⟩
        · cases found.symm.trans foundSome
  | some node =>
      obtain ⟨content, children⟩ := node
      have opened (isOpen : Node.Open ⟨content, children⟩) :
          Blocked before.graph pos parent fault ∧ after = before ↔ False := by
        refine iff_false_intro ?_
        rintro ⟨⟨missing⟩ | ⟨foundAgain, full⟩, _⟩
        · cases found.symm.trans missing
        · cases found.symm.trans foundAgain
          exact full isOpen
      cases content with
      | decision nickname =>
          dsimp only
          split
          · rename_i full
            refine fails_fail_iff.trans ⟨?_, ?_⟩
            · rintro ⟨rfl, rfl⟩
              exact ⟨.full found fun isOpen => Nat.not_le.mpr (isOpen nickname rfl) full, rfl⟩
            · rintro ⟨⟨missing⟩ | _, rfl⟩
              · cases found.symm.trans missing
              · exact ⟨rfl, rfl⟩
          · rename_i few
            rw [opened fun _ _ => Nat.lt_of_not_le few]
            exact iff_false_intro not_fails_pure
      | data data =>
          rw [opened fun _ isDecision => by cases isDecision]
          exact iff_false_intro not_fails_pure
      | documentation text =>
          rw [opened fun _ isDecision => by cases isDecision]
          exact iff_false_intro not_fails_pure
      | choice conditions =>
          rw [opened fun _ isDecision => by cases isDecision]
          exact iff_false_intro not_fails_pure

theorem fails_attach_iff :
    Fails (attach pos parent child) before fault after ↔ Blocked before.graph pos parent fault ∧ after = before := by
  rw [attach, fails_bind_iff, fails_checkOpen_iff]
  refine or_iff_left ?_
  rintro ⟨_, _, _, fails⟩
  exact not_fails_modifyGraph fails

theorem fails_newData_iff :
    Fails (newData pos parent) before fault after ↔ Blocked before.graph pos parent fault ∧ after = before := by
  rw [newData, fails_bind_iff, fails_checkOpen_iff]
  refine or_iff_left ?_
  rintro ⟨_, _, opened, fails⟩
  obtain ⟨⟨node, found, isOpen⟩, rfl⟩ := runs_checkOpen_iff.mp opened
  rw [fails_bind_of_runs (runs_addNode_iff.mpr ⟨rfl, rfl⟩), fails_bind_iff, fails_attach_iff] at fails
  rcases fails with ⟨blocked, _⟩ | ⟨_, _, _, impossible⟩
  · -- the node was open when it was checked, and making another one does not change that
    rw [graph_onGraph] at blocked
    cases blocked with
    | missing missing =>
        rw [Graph.get?_add, found] at missing
        split at missing <;> cases missing
    | full foundAgain full =>
        rw [Graph.get?_add, found] at foundAgain
        split at foundAgain
        · cases foundAgain
          exact full fun _ isDecision => by cases isDecision
        · cases foundAgain
          exact full isOpen
  · exact not_fails_pure impossible

theorem fails_findGroup_iff {name : String} :
    Fails (findGroup pos name) before fault after ↔
      before.groups.lookup name = none ∧ fault = ⟨pos, .unknownGroup name⟩ ∧ after = before := by
  rw [findGroup, fails_bind_of_runs (runs_get_iff.mpr ⟨rfl, rfl⟩)]
  cases before.groups.lookup name with
  | none => exact fails_fail_iff.trans (and_iff_right rfl).symm
  | some factions => exact iff_of_false not_fails_pure fun unknown => by cases unknown.1

theorem fails_findSub_iff {name : String} :
    Fails (findSub pos name) before fault after ↔
      before.subs.lookup name = none ∧ fault = ⟨pos, .unknownSub name⟩ ∧ after = before := by
  rw [findSub, fails_bind_of_runs (runs_get_iff.mpr ⟨rfl, rfl⟩)]
  cases before.subs.lookup name with
  | none => exact fails_fail_iff.trans (and_iff_right rfl).symm
  | some target => exact iff_of_false not_fails_pure fun unknown => by cases unknown.1

theorem fails_fill_iff {field : Field} {target : NodeId} :
    Fails (fill pos field target) before fault after ↔
      ∃ name, field.groupName? = some name ∧ before.groups.lookup name = none ∧
        fault = ⟨pos, .unknownGroup name⟩ ∧ after = before := by
  rw [fill, fails_bind_iff]
  have finishes {factions : Mission.Factions} {middle : Builder} :
      ¬ Fails (modifyGraph (·.modifyData target (·.put factions field)) >>= fun _ => pure target) middle fault after := by
    rw [fails_bind_iff]
    rintro (impossible | ⟨_, _, _, impossible⟩)
    · exact not_fails_modifyGraph impossible
    · exact not_fails_pure impossible
  refine (or_iff_left fun later => ?_).trans ?_
  · obtain ⟨_, _, _, impossible⟩ := later
    exact finishes impossible
  · cases field.groupName? with
    | none =>
        refine iff_of_false not_fails_pure fun named => ?_
        obtain ⟨_, impossible, _⟩ := named
        cases impossible
    | some name =>
        refine fails_findGroup_iff.trans ⟨fun unknown => ⟨name, rfl, unknown⟩, ?_⟩
        rintro ⟨_, ⟨⟩, unknown⟩
        exact unknown

theorem fails_addDecision_iff {condition : Condition} :
    Fails (addDecision pos condition) before fault after ↔
      condition = .otherwise ∧ fault = ⟨pos, .malformedIf⟩ ∧ after = before := by
  cases condition with
  | named name => exact iff_of_false not_fails_addNode fun impossible => by cases impossible.1
  | group name => exact iff_of_false not_fails_addNode fun impossible => by cases impossible.1
  | otherwise => exact fails_fail_iff.trans (and_iff_right rfl).symm

theorem fails_declareGroup_iff {group : Group} :
    Fails (declareGroup pos group) before fault after ↔
      (before.groups.lookup group.name).isSome = true ∧ fault = ⟨pos, .duplicateGroup group.name⟩ ∧
        after = before := by
  rw [declareGroup, fails_bind_of_runs (runs_get_iff.mpr ⟨rfl, rfl⟩)]
  dsimp only
  split
  · rename_i known
    rw [fails_bind_iff, fails_fail_iff, and_iff_right known]
    refine or_iff_left ?_
    rintro ⟨_, _, impossible, _⟩
    exact not_runs_fail impossible
  · rename_i unknown
    exact iff_of_false not_fails_modify fun known => unknown known.1

theorem fails_declareSub_iff {name : String} {body : List (Statement Pos)} :
    Fails (declareSub pos name body) before fault after ↔
      (before.subs.lookup name).isSome = true ∧ fault = ⟨pos, .duplicateSub name⟩ ∧ after = before := by
  rw [declareSub, fails_bind_of_runs (runs_get_iff.mpr ⟨rfl, rfl⟩)]
  dsimp only
  split
  · rename_i known
    rw [fails_bind_iff, fails_fail_iff, and_iff_right known]
    refine or_iff_left ?_
    rintro ⟨_, _, impossible, _⟩
    exact not_runs_fail impossible
  · rename_i unknown
    refine iff_of_false ?_ fun known => unknown known.1
    rw [fails_bind_of_runs (runs_addNode_iff.mpr ⟨rfl, rfl⟩)]
    exact not_fails_modify

end MissionGraph.Builder
