import MissionGraph.Proofs.Build.Faults
import MissionGraph.Proofs.Script.Checks

/-!
# When construction succeeds

Statements can be built if every reference in them is known, an `if` is always the last statement of its
body, and only the last block of an `if` is for all other cases. Then no step of the construction fails, and
whatever is laid out is of this kind.
-/

namespace MissionGraph

open Mission (Factions Field)
open Script (Block Condition Fault FaultIn Pos Program RegularBody Statement bodiesOf declaredGroup? declaredSub?
  groupsOf mains scopeOf subsOf)

/-- The group that the condition tests for is known. -/
def Script.Condition.Resolved (scope : Scope) : Condition → Prop
  | .group name => ∃ factions, scope.groups.lookup name = some factions
  | _ => True

mutual

/-- Nothing in the statements stops their construction. -/
inductive Buildable {α : Type} (scope : Scope) : List (Statement α) → Prop where
  | nil : Buildable scope []
  | choice {note : α} {blocks : List (Block α)} (several : 2 ≤ blocks.length)
      (inner : BuildableBlocks scope blocks) : Buildable scope [.choice note blocks]
  | call {note : α} {name : String} {target : NodeId} {rest : List (Statement α)}
      (known : scope.subs.lookup name = some target) (later : Buildable scope rest) :
      Buildable scope (.call note name :: rest)
  | unimplemented {note : α} {rest : List (Statement α)} (later : Buildable scope rest) :
      Buildable scope (.unimplemented note :: rest)
  | doc {note : α} {name : String} {rest : List (Statement α)} (later : Buildable scope rest) :
      Buildable scope (.doc note name :: rest)
  | field {note : α} {field : Field} {factions : Factions} {rest : List (Statement α)}
      (known : Builder.factionsFor? scope.groups field = some factions) (later : Buildable scope rest) :
      Buildable scope (.field note field :: rest)

/-- Nothing in the blocks of an `if` stops their construction. -/
inductive BuildableBlocks {α : Type} (scope : Scope) : List (Block α) → Prop where
  | nil : BuildableBlocks scope []
  | cons {condition : Condition} {body : List (Statement α)} {rest : List (Block α)}
      (tested : rest ≠ [] → condition ≠ .otherwise) (resolved : condition.Resolved scope)
      (inner : Buildable scope body) (later : BuildableBlocks scope rest) :
      BuildableBlocks scope (.mk condition body :: rest)

end

/-- What the statement refers to by itself is known, and an `if` has several blocks. -/
def Script.Statement.Known {α : Type} (scope : Scope) : Statement α → Prop
  | .choice _ blocks => 2 ≤ blocks.length ∧ ∀ block ∈ blocks, block.condition.Resolved scope
  | .call _ name => ∃ target, scope.subs.lookup name = some target
  | .field _ value => ∃ factions, Builder.factionsFor? scope.groups value = some factions
  | _ => True

theorem Script.Statement.Known.not_misses {scope : Scope} {statement : Statement Pos} {fault : Fault}
    (known : statement.Known scope) : ¬ statement.Misses scope fault := by
  intro misses
  cases misses with
  | sub unknown =>
      obtain ⟨_, found⟩ := known
      cases unknown.symm.trans found
  | fieldGroup refers unknown =>
      obtain ⟨_, found⟩ := known
      rw [Builder.factionsFor?, refers] at found
      cases unknown.symm.trans found
  | testedGroup member tests unknown =>
      have resolved := known.2 _ member
      rw [tests] at resolved
      obtain ⟨_, found⟩ := resolved
      cases unknown.symm.trans found

mutual

/-- All statements in what can be built are regular and refer to what is known. -/
theorem inside_of_buildable {α : Type} {scope : Scope} {statements : List (Statement α)}
    (buildable : Buildable scope statements) :
    ∀ statement ∈ Statement.walkBody statements, statement.Regular ∧ statement.Known scope := by
  match buildable with
  | .nil => exact fun _ member => absurd member List.not_mem_nil
  | .choice several inner =>
      obtain ⟨tested, resolved, inside⟩ := inside_of_buildableBlocks inner
      refine List.forall_mem_append.mpr ⟨List.forall_mem_cons.mpr ⟨?_, inside⟩, ?_⟩
      · exact ⟨⟨several, tested⟩, several, resolved⟩
      · exact fun _ member => absurd member List.not_mem_nil
  | .call known later => exact List.forall_mem_cons.mpr ⟨⟨trivial, _, known⟩, inside_of_buildable later⟩
  | .unimplemented later => exact List.forall_mem_cons.mpr ⟨⟨trivial, trivial⟩, inside_of_buildable later⟩
  | .doc later => exact List.forall_mem_cons.mpr ⟨⟨trivial, trivial⟩, inside_of_buildable later⟩
  | .field known later => exact List.forall_mem_cons.mpr ⟨⟨trivial, _, known⟩, inside_of_buildable later⟩

theorem inside_of_buildableBlocks {α : Type} {scope : Scope} {blocks : List (Block α)}
    (buildable : BuildableBlocks scope blocks) :
    (∀ block ∈ blocks.dropLast, block.condition ≠ .otherwise) ∧
      (∀ block ∈ blocks, block.condition.Resolved scope) ∧
      ∀ statement ∈ Statement.walkBlocks blocks, statement.Regular ∧ statement.Known scope := by
  match buildable with
  | .nil =>
      exact ⟨fun _ member => absurd member List.not_mem_nil, fun _ member => absurd member List.not_mem_nil,
        fun _ member => absurd member List.not_mem_nil⟩
  | @BuildableBlocks.cons _ _ condition body rest tested resolved inner later =>
      obtain ⟨testedLater, resolvedLater, insideLater⟩ := inside_of_buildableBlocks later
      refine ⟨?_, List.forall_mem_cons.mpr ⟨resolved, resolvedLater⟩,
        List.forall_mem_append.mpr ⟨inside_of_buildable inner, insideLater⟩⟩
      by_cases isLast : rest = []
      · rw [isLast]
        exact fun _ member => absurd member List.not_mem_nil
      · rw [List.dropLast_cons_of_ne_nil isLast]
        exact List.forall_mem_cons.mpr ⟨tested isLast, testedLater⟩

end

theorem BuildableBlocks.body {α : Type} {scope : Scope} {blocks : List (Block α)} {block : Block α}
    (buildable : BuildableBlocks scope blocks) (isBlock : block ∈ blocks) : Buildable scope block.body := by
  induction blocks with
  | nil => cases isBlock
  | cons first rest ih =>
      cases buildable with
      | cons _ _ inner later =>
          rcases List.mem_cons.mp isBlock with rfl | isLater
          · exact inner
          · exact ih later isLater

namespace Buildable

variable {α : Type} {scope : Scope}

theorem regular {statements : List (Statement α)} (buildable : Buildable scope statements) : RegularBody statements :=
  fun statement member => (inside_of_buildable buildable statement member).1

/-- A block inside what can be built can be built. -/
theorem block {statements : List (Statement α)} {note : α} {blocks : List (Block α)} {block : Block α}
    (buildable : Buildable scope statements) (member : .choice note blocks ∈ statements) (isBlock : block ∈ blocks) :
    Buildable scope block.body := by
  induction statements with
  | nil => cases member
  | cons head rest ih =>
      cases buildable with
      | choice _ inner =>
          cases List.mem_singleton.mp member
          exact inner.body isBlock
      | call _ later =>
          cases member with
          | tail _ inRest => exact ih later inRest
      | unimplemented later =>
          cases member with
          | tail _ inRest => exact ih later inRest
      | doc later =>
          cases member with
          | tail _ inRest => exact ih later inRest
      | field _ later =>
          cases member with
          | tail _ inRest => exact ih later inRest

/-- No statement of what can be built stands behind an `if`. -/
theorem not_followsIf {statement : Statement α} {statements : List (Statement α)}
    (buildable : Buildable scope statements) : ¬ statement.FollowsIf statements := by
  intro follows
  induction follows with
  | here => cases buildable
  | later follows ih =>
      cases buildable with
      | choice _ _ => cases follows
      | call _ later => exact ih later
      | unimplemented later => exact ih later
      | doc later => exact ih later
      | field _ later => exact ih later

/-- Nothing is wrong in what can be built. -/
theorem not_faultIn {body : List (Statement Pos)} {fault : Fault} (buildable : Buildable scope body) :
    ¬ FaultIn scope body fault := by
  intro faultIn
  induction faultIn with
  | misses member misses =>
      have known := (inside_of_buildable buildable _ (Script.mem_walkBody_of_mem member)).2
      exact known.not_misses misses
  | pastIf follows => exact buildable.not_followsIf follows
  | inside member isBlock _ ih => exact ih (buildable.block member isBlock)

end Buildable

namespace Script.Sequence

variable {script list : Program} {scope : Scope}

/-- If the bodies of a script can be built, so can all sequences of statements in it. -/
theorem buildable (sequence : Sequence script list)
    (bodies : ∀ root body, (root, body) ∈ bodiesOf script → Buildable scope body) : Buildable scope list := by
  induction sequence with
  | mains => exact bodies _ _ List.mem_cons_self
  | sub declared =>
      obtain ⟨id, isSub⟩ := exists_mem_subsFrom declared (Graph.entry + 1)
      exact bodies id _ (List.mem_cons_of_mem _ (List.mem_map.mpr ⟨_, isSub, rfl⟩))
  | block _ isIf isBlock ih => exact ih.block isIf isBlock

/-- If all references are known, only a statement behind an `if` can be wrong. -/
theorem pastIf_of_faultIn {fault : Fault} (sequence : Sequence script list)
    (known : ∀ statement ∈ Statement.walkBody script, statement.Known scope) (faultIn : FaultIn scope list fault) :
    ∃ statement, PastIf script statement ∧ fault = ⟨statement.note, .continuesPastIf⟩ := by
  induction faultIn with
  | misses member misses =>
      exact absurd misses (known _ (sequence.mem_walkBody (mem_walkBody_of_mem member))).not_misses
  | pastIf follows => exact ⟨_, ⟨_, sequence, follows⟩, rfl⟩
  | inside member isBlock _ ih => exact ih (sequence.block member isBlock)

end Script.Sequence

/-- Nothing in a part of a laid out script stops its construction. -/
def Part.Built {α : Type} (scope : Scope) : Part α → Prop
  | .body _ _ statements => Buildable scope statements
  | .choice blocks => 2 ≤ blocks.length ∧ BuildableBlocks scope blocks
  | .rest blocks => blocks ≠ [] ∧ BuildableBlocks scope blocks
  | .block single => single.condition.Resolved scope ∧ Buildable scope single.body

theorem Script.Condition.resolved_of_not_isGroup {condition : Condition} {scope : Scope}
    (notGroup : condition.isGroup = false) : condition.Resolved scope := by
  cases condition with
  | named name => trivial
  | group name => cases notGroup
  | otherwise => trivial

/-- What is laid out can be built. -/
theorem Layout.built {α : Type} {graph : Graph} {scope : Scope} {part : Part α} {first last : Nat}
    (layout : Layout graph scope part first last) : part.Built scope := by
  induction layout with
  | done _ => exact .nil
  | fieldHere _ known _ ih => exact .field known ih
  | fieldBehind _ known _ _ ih => exact .field known ih
  | missingHere _ ih => exact .unimplemented ih
  | missingBehind _ _ _ ih => exact .unimplemented ih
  | doc _ _ ih => exact .doc ih
  | call known _ ih => exact .call known ih
  | choiceBehind _ _ ih => exact .choice ih.1 ih.2
  | @choice _ block _ _ _ _ named _ _ _ ihBlock ihRest =>
      obtain ⟨condition, body⟩ := block
      refine ⟨Nat.succ_le_succ (List.length_pos_iff.mpr ihRest.1), .cons (fun _ => ?_) ihBlock.1 ihBlock.2 ihRest.2⟩
      rintro rfl
      cases named
  | @lastBlock block _ _ _ ih =>
      obtain ⟨condition, body⟩ := block
      exact ⟨List.cons_ne_nil _ _, .cons (fun more => absurd rfl more) ih.1 ih.2 .nil⟩
  | laterBlocks _ ih => exact ⟨List.cons_ne_nil _ _, ih.2⟩
  | groupBlock known _ ih => exact ⟨⟨_, known⟩, ih⟩
  | innerChoice notGroup _ ih => exact ⟨Condition.resolved_of_not_isGroup notGroup, .choice ih.1 ih.2⟩
  | plainBlock notGroup _ _ ih => exact ⟨Condition.resolved_of_not_isGroup notGroup, ih⟩

theorem Layouts.buildable {α : Type} {graph : Graph} {scope : Scope} {bodies : List (NodeId × List (Statement α))}
    {first last : Nat} (layouts : Layouts graph scope bodies first last) {root : NodeId} {body : List (Statement α)}
    (listed : (root, body) ∈ bodies) : Buildable scope body := by
  induction layouts with
  | nil => cases listed
  | cons head _ ih =>
      rcases List.mem_cons.mp listed with same | later
      · cases same
        exact head.built
      · exact ih later

namespace Script

theorem map_fst_groupsOf {α : Type} (script : List (Statement α)) :
    (groupsOf script).map Prod.fst = script.filterMap declaredGroup? := by
  induction script with
  | nil => rfl
  | cons statement rest ih =>
      cases statement with
      | group note group => exact congrArg _ ih
      | _ => exact ih

theorem map_name_subsFrom {α : Type} (first : NodeId) (script : List (Statement α)) :
    ((subsFrom first script).map fun (_, name, _) => name) = script.filterMap declaredSub? := by
  induction script generalizing first with
  | nil => rfl
  | cons statement rest ih =>
      cases statement with
      | sub note name body => exact congrArg _ (ih (first + 1))
      | _ => exact ih first

end Script

namespace Builder

variable {α : Type}

/-- The step succeeds on the builder. -/
def Succeeds (step : Build α) (before : Builder) : Prop :=
  ∃ value after, Runs step before value after

theorem Succeeds.bind {β : Type} {first : Build α} {next : α → Build β} {before : Builder}
    (succeeds : Succeeds first before)
    (later : ∀ value middle, Runs first before value middle → Succeeds (next value) middle) :
    Succeeds (first >>= next) before := by
  obtain ⟨value, middle, runs⟩ := succeeds
  obtain ⟨result, after, runsLater⟩ := later value middle runs
  exact ⟨result, after, runs_bind_iff.mpr ⟨value, middle, runs, runsLater⟩⟩

theorem succeeds_pure {value : α} {before : Builder} : Succeeds (pure value) before :=
  ⟨value, before, runs_pure_iff.mpr ⟨rfl, rfl⟩⟩

/-- A step without faults succeeds. -/
theorem succeeds_of_failsOnly {step : Build α} {before : Builder} (only : FailsOnly (fun _ => False) step before) :
    Succeeds step before := by
  cases result : step.run before with
  | ok value after => exact ⟨value, after, result⟩
  | error fault after => exact absurd (only fault after result) id

theorem lookup_cons_of_fresh {β : Type} {names rest : List String} {known : List (String × β)} {name : String}
    {value : β} (distinct : (name :: rest).Nodup) (sameNames : names = name :: rest)
    (fresh : ∀ other ∈ names, known.lookup other = none) :
    ∀ other ∈ rest, ((name, value) :: known).lookup other = none := by
  intro other member
  have different : (other == name) = false := by
    rw [beq_eq_false_iff_ne]
    rintro rfl
    exact (List.nodup_cons.mp distinct).1 member
  rw [List.lookup_cons, different]
  exact fresh other (sameNames ▸ List.mem_cons_of_mem _ member)

/-- Declarations of different new names succeed. -/
theorem succeeds_declare {script : List (Statement Pos)} {before : Builder}
    (groups : (script.filterMap declaredGroup?).Nodup)
    (freshGroups : ∀ name ∈ script.filterMap declaredGroup?, before.groups.lookup name = none)
    (subs : (script.filterMap declaredSub?).Nodup)
    (freshSubs : ∀ name ∈ script.filterMap declaredSub?, before.subs.lookup name = none) :
    Succeeds (declare script) before := by
  induction script generalizing before with
  | nil => exact succeeds_pure
  | cons statement rest ih =>
      cases statement with
      | group pos group =>
          have isNew := freshGroups group.name List.mem_cons_self
          obtain ⟨others, after, runs⟩ := @ih { before with groups := (group.name, ⟨group.factions⟩) :: before.groups }
            (List.nodup_cons.mp groups).2 (lookup_cons_of_fresh groups rfl freshGroups) subs freshSubs
          exact ⟨others, after, runs_bind_iff.mpr ⟨(), _, runs_declareGroup_iff.mpr ⟨isNew, rfl⟩, runs⟩⟩
      | sub pos name body =>
          have isNew := freshSubs name List.mem_cons_self
          obtain ⟨others, after, runs⟩ := @ih { before with
              graph := (before.graph.add (.data .empty)).2
              subs := (name, before.graph.nextId) :: before.subs
              pending := before.pending ++ [(before.graph.nextId, body)] }
            groups freshGroups (List.nodup_cons.mp subs).2 (lookup_cons_of_fresh subs rfl freshSubs)
          exact ⟨others, after, runs_bind_iff.mpr ⟨(), _, runs_declareSub_iff.mpr ⟨isNew, rfl⟩, runs⟩⟩
      | _ => exact (ih groups freshGroups subs freshSubs).bind fun _ _ _ => succeeds_pure

/-- A script is built if it declares no name twice and all its bodies can be built. -/
theorem exists_rawGraph {script : Program} (groups : (script.filterMap declaredGroup?).Nodup)
    (subs : (script.filterMap declaredSub?).Nodup)
    (buildable : ∀ root body, (root, body) ∈ bodiesOf script → Buildable (scopeOf script) body) :
    ∃ graph, rawGraph script = .ok graph := by
  have succeeds : Succeeds (declare script) start := succeeds_declare groups (fun _ _ => rfl) subs (fun _ _ => rfl)
  have built : Succeeds (buildScript script) start := by
    refine succeeds.bind fun others declared declares => succeeds_of_failsOnly ?_
    have only := failsOnly_addScript_of_declare (fun root body listed => (buildable root body listed).regular) declares
    refine only.mono ?_
    rintro fault ⟨root, body, listed, faultIn⟩
    exact (buildable root body listed).not_faultIn faultIn
  obtain ⟨_, after, runs⟩ := built
  refine ⟨after.graph, ?_⟩
  rw [rawGraph, runs]

end Builder

namespace Script

/-- A statement of a script is a declaration, or it stands in a body. -/
theorem mem_body_of_mem_walkBody {script : Program} {statement : Statement Pos} (first : NodeId)
    (member : statement ∈ Statement.walkBody script) :
    (∃ pos group, statement = .group pos group) ∨ (∃ pos name body, statement = .sub pos name body) ∨
      statement ∈ Statement.walkBody (mains script) ∨
      ∃ id name body, (id, name, body) ∈ subsFrom first script ∧ statement ∈ Statement.walkBody body := by
  induction script generalizing first with
  | nil => cases member
  | cons head rest ih =>
      rcases List.mem_append.mp member with inHead | inRest
      · cases head with
        | group pos group => exact .inl ⟨pos, group, List.mem_singleton.mp inHead⟩
        | sub pos name body =>
            rcases List.mem_cons.mp inHead with same | inBody
            · exact .inr (.inl ⟨pos, name, body, same⟩)
            · exact .inr (.inr (.inr ⟨first, name, body, List.mem_cons_self, inBody⟩))
        | _ => exact .inr (.inr (.inl (List.mem_append_left _ inHead)))
      · cases head with
        | group pos group => exact ih first inRest
        | sub pos name body =>
            rcases ih (first + 1) inRest with isGroup | isSub | inMains | ⟨id, other, inner, listed, inBody⟩
            · exact .inl isGroup
            · exact .inr (.inl isSub)
            · exact .inr (.inr (.inl inMains))
            · exact .inr (.inr (.inr ⟨id, other, inner, List.mem_cons_of_mem _ listed, inBody⟩))
        | _ =>
            rcases ih first inRest with isGroup | isSub | inMains | inSubs
            · exact .inl isGroup
            · exact .inr (.inl isSub)
            · exact .inr (.inr (.inl (List.mem_append_right _ inMains)))
            · exact .inr (.inr (.inr inSubs))

theorem mem_keys_of_lookup {β : Type} {known : List (String × β)} {name : String} {value : β}
    (found : known.reverse.lookup name = some value) : name ∈ known.map Prod.fst := by
  obtain ⟨before, after, parts, _⟩ := List.lookup_eq_some_iff.mp found
  have member : (name, value) ∈ known := by
    rw [← List.mem_reverse, parts]
    exact List.mem_append_right _ List.mem_cons_self
  exact List.mem_map_of_mem member

/-- What is listed under different names can be looked up, also from the end. -/
theorem lookup_reverse_of_mem {β : Type} {known : List (String × β)} (nodup : (known.map Prod.fst).Nodup)
    {name : String} {value : β} (member : (name, value) ∈ known) : known.reverse.lookup name = some value := by
  have general {listed : List (String × β)} (once : (listed.map Prod.fst).Nodup) (isListed : (name, value) ∈ listed) :
      listed.lookup name = some value := by
    induction listed with
    | nil => cases isListed
    | cons first rest ih =>
        obtain ⟨notAgain, onceRest⟩ := List.nodup_cons.mp once
        rcases List.mem_cons.mp isListed with rfl | later
        · exact List.lookup_cons_self
        · have other : name ≠ first.1 := by
            rintro rfl
            exact notAgain (List.mem_map.mpr ⟨_, later, rfl⟩)
          rw [List.lookup_cons, beq_false_of_ne other]
          exact ih onceRest later
  refine general ?_ (List.mem_reverse.mpr member)
  rw [List.map_reverse]
  exact (List.reverse_perm _).nodup_iff.mpr nodup

theorem groupFault?_eq_none {script : Program} {pos : Pos} {name : String} {factions : Factions}
    (known : (scopeOf script).groups.lookup name = some factions) :
    groupFault? (script.filterMap declaredGroup?) pos name = none := by
  rw [groupFault?, ← map_fst_groupsOf, if_pos (mem_keys_of_lookup known)]

/-- A statement that refers to what is known has no fault. -/
theorem referenceFault?_eq_none {script : Program} {statement : Statement Pos}
    (known : statement.Known (scopeOf script)) :
    referenceFault? (script.filterMap declaredGroup?) (script.filterMap declaredSub?) statement = none := by
  cases statement with
  | call pos name =>
      obtain ⟨target, found⟩ := known
      have declared := mem_keys_of_lookup found
      rw [List.map_map] at declared
      rw [referenceFault?, if_pos]
      rw [← map_name_subsFrom (Graph.entry + 1)]
      exact declared
  | field pos value =>
      obtain ⟨factions, found⟩ := known
      rw [Builder.factionsFor?] at found
      rw [referenceFault?]
      split at found
      · rename_i name refers
        rw [refers]
        exact groupFault?_eq_none found
      · rename_i refers
        rw [refers]
        rfl
  | choice pos blocks =>
      refine List.findSome?_eq_none_iff.mpr fun block member => ?_
      have resolved := known.2 block member
      split
      · rename_i name isGroup
        rw [isGroup] at resolved
        obtain ⟨factions, found⟩ := resolved
        exact groupFault?_eq_none found
      · rfl
  | _ => rfl

/-- The references of a script pass the checks if all statements in its bodies refer to what is known. -/
theorem checkReferences_of_known {script : Program} (known : ∀ root body, (root, body) ∈ bodiesOf script →
      ∀ statement ∈ Statement.walkBody body, statement.Known (scopeOf script)) :
    checkReferences script = .ok () := by
  refine checkReferences_eq_ok_iff.mpr fun statement member => ?_
  rcases mem_body_of_mem_walkBody (Graph.entry + 1) member with
    ⟨pos, group, rfl⟩ | ⟨pos, name, body, rfl⟩ | inMains | ⟨id, name, body, listed, inBody⟩
  · rfl
  · rfl
  · exact referenceFault?_eq_none (known _ _ List.mem_cons_self statement inMains)
  · have isBody : (id, body) ∈ bodiesOf script := List.mem_cons_of_mem _ (List.mem_map.mpr ⟨_, listed, rfl⟩)
    exact referenceFault?_eq_none (known id body isBody statement inBody)

theorem checkReferences_of_buildable {script : Program}
    (buildable : ∀ root body, (root, body) ∈ bodiesOf script → Buildable (scopeOf script) body) :
    checkReferences script = .ok () :=
  checkReferences_of_known fun root body listed statement member =>
    (inside_of_buildable (buildable root body listed) statement member).2

end Script

end MissionGraph
