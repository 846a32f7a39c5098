import MissionGraph.Proofs.Build.Failures

/-!
# What can go wrong in a body

The statements of a body declare nothing, and every `if` in them has several blocks, all but the last of
which test something. Construction of such statements fails for two reasons only: a statement refers to
something that is not known, or it stands behind an `if`.
-/

namespace MissionGraph

open Mission (Field)
open Script (Block Condition Fault Pos Statement bodiesOf scopeOf)

namespace Script

variable {α : Type}

/-- The statement is no declaration, and an `if` has several blocks, all but the last of which test
something. -/
def Statement.Regular : Statement α → Prop
  | .sub _ _ _ => False
  | .group _ _ => False
  | .choice _ blocks => 2 ≤ blocks.length ∧ ∀ block ∈ blocks.dropLast, block.condition ≠ .otherwise
  | _ => True

/-- The statement stands directly behind an `if` of the list. -/
inductive Statement.FollowsIf (statement : Statement α) : List (Statement α) → Prop where
  | here {note : α} {blocks : List (Block α)} {rest : List (Statement α)} :
      FollowsIf statement (.choice note blocks :: statement :: rest)
  | later {head : Statement α} {rest : List (Statement α)} (follows : FollowsIf statement rest) :
      FollowsIf statement (head :: rest)

/-- The statement refers to something that is not known, and this is the fault. -/
inductive Statement.Misses (scope : Scope) : Statement Pos → Fault → Prop where
  | sub {pos : Pos} {name : String} (unknown : scope.subs.lookup name = none) :
      Misses scope (.call pos name) ⟨pos, .unknownSub name⟩
  | fieldGroup {pos : Pos} {field : Field} {name : String} (refers : field.groupName? = some name)
      (unknown : scope.groups.lookup name = none) : Misses scope (.field pos field) ⟨pos, .unknownGroup name⟩
  | testedGroup {pos : Pos} {blocks : List (Block Pos)} {block : Block Pos} {name : String}
      (member : block ∈ blocks) (tests : block.condition = .group name)
      (unknown : scope.groups.lookup name = none) : Misses scope (.choice pos blocks) ⟨pos, .unknownGroup name⟩

/-- What can go wrong in a list of statements or in the blocks inside it. -/
inductive FaultIn (scope : Scope) : List (Statement Pos) → Fault → Prop where
  | misses {body : List (Statement Pos)} {statement : Statement Pos} {fault : Fault}
      (member : statement ∈ body) (misses : statement.Misses scope fault) : FaultIn scope body fault
  | pastIf {body : List (Statement Pos)} {statement : Statement Pos} (follows : statement.FollowsIf body) :
      FaultIn scope body ⟨statement.note, .continuesPastIf⟩
  | inside {body : List (Statement Pos)} {pos : Pos} {blocks : List (Block Pos)} {block : Block Pos} {fault : Fault}
      (member : .choice pos blocks ∈ body) (isBlock : block ∈ blocks) (inner : FaultIn scope block.body fault) :
      FaultIn scope body fault

theorem Statement.not_followsIf_singleton {statement only : Statement α} : ¬ statement.FollowsIf [only] := by
  intro follows
  cases follows with
  | later follows => cases follows

namespace FaultIn

variable {scope : Scope} {statement : Statement Pos} {rest body : List (Statement Pos)} {pos : Pos}
  {condition : Condition} {part blocks : List (Block Pos)} {fault : Fault}

theorem head (faultIn : FaultIn scope [statement] fault) : FaultIn scope (statement :: rest) fault := by
  cases faultIn with
  | misses member misses =>
      cases List.mem_singleton.mp member
      exact .misses List.mem_cons_self misses
  | pastIf follows => exact absurd follows Statement.not_followsIf_singleton
  | inside member isBlock inner =>
      cases List.mem_singleton.mp member
      exact .inside List.mem_cons_self isBlock inner

theorem later (faultIn : FaultIn scope rest fault) : FaultIn scope (statement :: rest) fault := by
  cases faultIn with
  | misses member misses => exact .misses (List.mem_cons_of_mem _ member) misses
  | pastIf follows => exact .pastIf (.later follows)
  | inside member isBlock inner => exact .inside (List.mem_cons_of_mem _ member) isBlock inner

/-- What goes wrong in some blocks of an `if` goes wrong in the `if`. -/
theorem blocks_of_subset (faultIn : FaultIn scope [.choice pos part] fault) (subset : part ⊆ blocks) :
    FaultIn scope [.choice pos blocks] fault := by
  cases faultIn with
  | misses member misses =>
      cases List.mem_singleton.mp member
      cases misses with
      | testedGroup isBlock tests unknown =>
          exact .misses List.mem_cons_self (.testedGroup (subset isBlock) tests unknown)
  | pastIf follows => exact absurd follows Statement.not_followsIf_singleton
  | inside member isBlock inner =>
      cases List.mem_singleton.mp member
      exact .inside List.mem_cons_self (subset isBlock) inner

theorem block (faultIn : FaultIn scope body fault) : FaultIn scope [.choice pos [.mk condition body]] fault :=
  .inside List.mem_cons_self List.mem_cons_self faultIn

end FaultIn

/-- The lists in which the statements of a script stand one behind the other: those that declare nothing, the
bodies of the subs, and the bodies of the blocks inside these. -/
inductive Sequence (script : List (Statement α)) : List (Statement α) → Prop where
  | mains : Sequence script (mains script)
  | sub {note : α} {name : String} {body : List (Statement α)} (declared : .sub note name body ∈ script) :
      Sequence script body
  | block {note : α} {blocks : List (Block α)} {block : Block α} {list : List (Statement α)}
      (outer : Sequence script list) (member : .choice note blocks ∈ list) (isBlock : block ∈ blocks) :
      Sequence script block.body

/-- The statement stands directly behind an `if` of the script. -/
def PastIf (script : List (Statement α)) (statement : Statement α) : Prop :=
  ∃ list, Sequence script list ∧ statement.FollowsIf list

theorem sequence_of_mem_bodiesOf {root : NodeId} {body script : List (Statement α)}
    (listed : (root, body) ∈ bodiesOf script) : Sequence script body := by
  rcases List.mem_cons.mp listed with same | declared
  · cases same
    exact .mains
  · obtain ⟨⟨id, name, inner⟩, isSub, same⟩ := List.mem_map.mp declared
    cases same
    obtain ⟨pos, member⟩ := exists_mem_of_mem_subsFrom isSub
    exact .sub member

theorem Sequence.mem_walkBody {script list : List (Statement α)} (sequence : Sequence script list)
    {statement : Statement α} (member : statement ∈ Statement.walkBody list) : statement ∈ Statement.walkBody script := by
  induction sequence with
  | mains => exact mem_walkBody_of_mem_mains member
  | sub declared => exact mem_walkBody_of_mem_walk declared (List.mem_cons_of_mem _ member)
  | @block note blocks block _ outer isIf isBlock ih =>
      refine ih (mem_walkBody_of_mem_walk isIf (List.mem_cons_of_mem _ ?_))
      exact mem_walkBlocks_of_mem isBlock member

/-- All statements of the list and inside it are regular. -/
def RegularBody (body : List (Statement α)) : Prop :=
  ∀ statement ∈ Statement.walkBody body, statement.Regular

theorem RegularBody.forks {body : List (Statement α)} (regular : RegularBody body) : Forks (Statement.walkBody body) :=
  fun _ _ member => (regular _ member).1

theorem RegularBody.head {statement : Statement α} {rest : List (Statement α)} (regular : RegularBody (statement :: rest)) :
    ∀ inner ∈ Statement.walk statement, inner.Regular :=
  fun inner member => regular inner (mem_walkBody_cons.mpr (.inl member))

theorem RegularBody.tail {statement : Statement α} {rest : List (Statement α)} (regular : RegularBody (statement :: rest)) :
    RegularBody rest :=
  fun inner member => regular inner (mem_walkBody_cons.mpr (.inr member))

/-- All blocks but the last test something, and the statements inside the blocks are regular. -/
structure RegularBlocks (blocks : List (Block α)) : Prop where
  tested : ∀ block ∈ blocks.dropLast, block.condition ≠ .otherwise
  inside : ∀ statement ∈ Statement.walkBlocks blocks, statement.Regular

namespace RegularBlocks

variable {note : α} {block : Block α} {blocks : List (Block α)}

theorem of_choice (regular : ∀ inner ∈ Statement.walk (.choice note blocks), inner.Regular) :
    2 ≤ blocks.length ∧ RegularBlocks blocks := by
  obtain ⟨⟨several, tested⟩, inside⟩ := List.forall_mem_cons.mp regular
  exact ⟨several, tested, inside⟩

theorem head (regular : RegularBlocks (block :: blocks)) : RegularBody block.body :=
  fun statement member => regular.inside statement (mem_walkBlocks_cons.mpr (.inl member))

theorem tail (regular : RegularBlocks (block :: blocks)) : RegularBlocks blocks where
  tested := by
    intro other member
    refine regular.tested other ?_
    cases blocks with
    | nil => cases member
    | cons next rest => exact List.mem_cons_of_mem _ member
  inside := fun statement member => regular.inside statement (mem_walkBlocks_cons.mpr (.inr member))

theorem forks (regular : RegularBlocks blocks) : Forks (Statement.walkBlocks blocks) :=
  fun _ _ member => (regular.inside _ member).1

theorem exists_nickname (regular : RegularBlocks (block :: blocks)) (several : 2 ≤ (block :: blocks).length) :
    ∃ nickname, block.condition.nickname? = some nickname := by
  have nonempty : blocks ≠ [] := by
    rintro rfl
    exact absurd several (Nat.not_succ_le_self 1)
  have tested := regular.tested block (by rw [List.dropLast_cons_of_ne_nil nonempty]; exact List.mem_cons_self)
  cases condition : block.condition with
  | named name => exact ⟨name, rfl⟩
  | group name => exact ⟨branchNickname, rfl⟩
  | otherwise => exact absurd condition tested

end RegularBlocks

end Script

theorem Node.open_of_plain {node : Node} (plain : node.nickname? = none) : node.Open := by
  intro nickname isDecision
  rw [Node.nickname?, isDecision] at plain
  cases plain

namespace Builder

open Script (FaultIn RegularBlocks RegularBody)

variable {α β : Type} {before after : Builder} {pos : Pos} {cursor next : NodeId} {node : Node}
  {allowed : Fault → Prop}

/-! ## Steps with certain faults only -/

/-- If the step fails, then with a fault that is allowed. -/
def FailsOnly (allowed : Fault → Prop) (step : Build α) (before : Builder) : Prop :=
  ∀ fault after, Fails step before fault after → allowed fault

theorem FailsOnly.mono {other : Fault → Prop} {step : Build α} (only : FailsOnly allowed step before)
    (weaker : ∀ fault, allowed fault → other fault) : FailsOnly other step before :=
  fun fault after fails => weaker fault (only fault after fails)

theorem failsOnly_pure {value : α} : FailsOnly allowed (pure value) before :=
  fun _ _ fails => absurd fails not_fails_pure

theorem FailsOnly.bind {first : Build α} {next : α → Build β} (here : FailsOnly allowed first before)
    (later : ∀ value middle, Runs first before value middle → FailsOnly allowed (next value) middle) :
    FailsOnly allowed (first >>= next) before := by
  intro fault after fails
  rcases fails_bind_iff.mp fails with failsFirst | ⟨value, middle, runs, failsNext⟩
  · exact here fault after failsFirst
  · exact later value middle runs fault after failsNext

theorem failsOnly_bind_pure {step : Build α} {result : α → β} (here : FailsOnly allowed step before) :
    FailsOnly allowed (step >>= fun value => pure (result value)) before :=
  here.bind fun _ _ _ => failsOnly_pure

/-- A step that reads the builder first. -/
theorem failsOnly_get_bind {next : Builder → Build α} (later : FailsOnly allowed (next before) before) :
    FailsOnly allowed (get >>= next) before := by
  intro fault after fails
  exact later fault after ((fails_bind_of_runs (runs_get_iff.mpr ⟨rfl, rfl⟩)).mp fails)

theorem failsOnly_modifyGraph {change : Graph → Graph} : FailsOnly allowed (modifyGraph change) before :=
  fun _ _ fails => absurd fails not_fails_modifyGraph

/-- The only thing that can be wrong with a stored node is that both its ways are taken. -/
theorem Blocked.of_stored {graph : Graph} {fault : Fault} (found : graph.get? cursor = some node)
    (blocked : Blocked graph pos cursor fault) : ¬ node.Open ∧ fault = ⟨pos, .continuesPastIf⟩ := by
  cases blocked with
  | missing missing => cases found.symm.trans missing
  | full foundAgain full =>
      cases found.symm.trans foundAgain
      exact ⟨full, rfl⟩

section

variable (full : ¬ node.Open → allowed ⟨pos, .continuesPastIf⟩)
include full

theorem failsOnly_attach {child : NodeId} (found : before.graph.get? cursor = some node) :
    FailsOnly allowed (attach pos cursor child) before := by
  intro fault after fails
  obtain ⟨closed, rfl⟩ := (fails_attach_iff.mp fails).1.of_stored found
  exact full closed

theorem failsOnly_newData (found : before.graph.get? cursor = some node) :
    FailsOnly allowed (newData pos cursor) before := by
  intro fault after fails
  obtain ⟨closed, rfl⟩ := (fails_newData_iff.mp fails).1.of_stored found
  exact full closed

/-- A new node is hung up behind a stored node. -/
theorem failsOnly_addNode_attach {content : Content} {next : NodeId → Build α} (bounded : before.graph.Bounded)
    (found : before.graph.get? cursor = some node)
    (later : node.Open → FailsOnly allowed (next before.graph.nextId) (before.onGraph (·.grow cursor content))) :
    FailsOnly allowed (addNode content >>= fun id => attach pos cursor id >>= fun _ => next id) before := by
  refine FailsOnly.bind (fun _ _ fails => absurd fails not_fails_addNode) fun id middle added => ?_
  obtain ⟨rfl, rfl⟩ := runs_addNode_iff.mp added
  have foundStill : (before.graph.add content).2.get? cursor = some node := by
    rw [Graph.get?_add, if_neg fun same => bounded.ne_nextId found same.symm, found]
  refine (failsOnly_attach full foundStill).bind fun _ grown attached => ?_
  obtain ⟨⟨_, foundAgain, isOpen⟩, rfl⟩ := runs_attach_iff.mp attached
  cases foundStill.symm.trans foundAgain
  exact later isOpen

theorem failsOnly_addUnimplemented (found : before.graph.get? cursor = some node) :
    FailsOnly allowed (addUnimplemented pos cursor) before := by
  rw [addUnimplemented_eq]
  refine failsOnly_get_bind ?_
  have marks (target : NodeId) (middle : Builder) : FailsOnly allowed
      (modifyGraph (·.modifyData target Mission.Data.missing) >>= fun _ => pure target) middle :=
    failsOnly_bind_pure failsOnly_modifyGraph
  split
  · exact failsOnly_pure.bind fun target middle _ => marks target middle
  · exact (failsOnly_newData full found).bind fun target middle _ => marks target middle

theorem failsOnly_addField {field : Field} (found : before.graph.get? cursor = some node)
    (missing : ∀ fault, Statement.Misses before.scope (.field pos field) fault → allowed fault) :
    FailsOnly allowed (addField pos cursor field) before := by
  have fills {target : NodeId} {middle : Builder} (same : middle.scope = before.scope) :
      FailsOnly allowed (fill pos field target) middle := by
    intro fault after fails
    obtain ⟨name, refers, unknown, rfl, _⟩ := fails_fill_iff.mp fails
    exact missing _ (.fieldGroup refers (same ▸ unknown))
  rw [addField_eq]
  refine failsOnly_get_bind ?_
  split
  · exact fills rfl
  · refine (failsOnly_newData full found).bind fun target middle made => ?_
    obtain ⟨_, rfl, rfl⟩ := runs_newData_iff.mp made
    exact fills rfl

/-- A statement that is no `if`, behind any stored node. -/
theorem failsOnly_addStatement {statement : Statement Pos} (bounded : before.graph.Bounded)
    (found : before.graph.get? cursor = some node) (regular : statement.Regular)
    (noIf : ∀ note blocks, statement ≠ .choice note blocks) (atStatement : statement.note = pos)
    (missing : ∀ fault, statement.Misses before.scope fault → allowed fault) :
    FailsOnly allowed (addStatement cursor statement) before := by
  subst atStatement
  cases statement with
  | sub pos name body => exact absurd regular id
  | group pos group => exact absurd regular id
  | choice pos blocks => exact absurd rfl (noIf pos blocks)
  | call pos name =>
      rw [addStatement]
      refine FailsOnly.bind ?_ fun target middle resolved => ?_
      · intro fault after fails
        obtain ⟨unknown, rfl, _⟩ := fails_findSub_iff.mp fails
        exact missing _ (.sub unknown)
      · obtain ⟨_, rfl⟩ := runs_findSub_iff.mp resolved
        exact failsOnly_bind_pure (failsOnly_attach full found)
  | unimplemented pos =>
      rw [addStatement]
      exact failsOnly_addUnimplemented full found
  | doc pos name =>
      rw [addStatement]
      exact failsOnly_addNode_attach full bounded found fun _ => failsOnly_pure
  | field pos field =>
      rw [addStatement]
      exact failsOnly_addField full found missing

end

/-! ## Statements behind each other -/

/-- Behind a node that is no decision, a statement that is no `if` leads to a node that is no decision. -/
theorem plain_of_runs_addStatement {statement : Statement Pos} (bounded : before.graph.Bounded)
    (found : before.graph.get? cursor = some node) (plain : node.nickname? = none)
    (noIf : ∀ note blocks, statement ≠ .choice note blocks)
    (runs : Runs (addStatement cursor statement) before next after) :
    ∃ later, after.graph.get? next = some later ∧ later.nickname? = none := by
  have different := bounded.ne_nextId found
  cases statement with
  | sub pos name body => exact absurd runs not_runs_fail
  | group pos group => exact absurd runs not_runs_fail
  | choice pos blocks => exact absurd rfl (noIf pos blocks)
  | call pos name =>
      rw [addStatement] at runs
      obtain ⟨target, _, resolved, following⟩ := runs_bind_iff.mp runs
      obtain ⟨_, rfl⟩ := runs_findSub_iff.mp resolved
      obtain ⟨_, _, attached, finished⟩ := runs_bind_iff.mp following
      obtain ⟨_, rfl⟩ := runs_attach_iff.mp attached
      obtain ⟨rfl, rfl⟩ := runs_pure_iff.mp finished
      refine ⟨node.leadingTo target, ?_, plain⟩
      rw [graph_onGraph, Graph.get?_link, if_pos rfl, found]
      rfl
  | unimplemented pos =>
      rw [addStatement] at runs
      cases isData : node.data? with
      | none =>
          obtain ⟨_, rfl, rfl⟩ := (runs_addUnimplemented_other_iff bounded found isData).mp runs
          exact ⟨_, Graph.get?_grow_nextId different _, rfl⟩
      | some data =>
          obtain ⟨content, children⟩ := node
          cases content with
          | data data =>
              obtain ⟨rfl, rfl⟩ := (runs_addUnimplemented_data_iff found).mp runs
              exact ⟨_, Graph.get?_modifyData_self found _, rfl⟩
          | decision _ => cases isData
          | documentation _ => cases isData
          | choice _ => cases isData
  | doc pos name =>
      rw [addStatement] at runs
      obtain ⟨_, finished⟩ := (runs_addNode_attach_iff bounded found).mp runs
      obtain ⟨rfl, rfl⟩ := runs_pure_iff.mp finished
      exact ⟨_, Graph.get?_grow_nextId different _, rfl⟩
  | field pos field =>
      rw [addStatement] at runs
      obtain ⟨factions, _, ⟨taken, rfl, rfl⟩ | ⟨_, _, rfl, rfl⟩⟩ := (runs_addField_iff bounded found).mp runs
      · obtain ⟨content, children⟩ := node
        cases content with
        | data data => exact ⟨_, Graph.get?_modifyData_self found _, rfl⟩
        | decision _ => cases taken
        | documentation _ => cases taken
        | choice _ => cases taken
      · exact ⟨_, Graph.get?_grow_nextId different _, rfl⟩

/-- Behind a decision without a free way out every statement fails, and that is its fault if it refers to
what is known. -/
theorem failsOnly_addStatement_of_full {statement : Statement Pos} {nickname : String} {one two : NodeId}
    (bounded : before.graph.Bounded) (found : before.graph.get? cursor = some ⟨.decision nickname, [one, two]⟩)
    (regular : ∀ inner ∈ Statement.walk statement, inner.Regular) :
    FailsOnly (fun fault => fault = ⟨statement.note, .continuesPastIf⟩ ∨ statement.Misses before.scope fault)
      (addStatement cursor statement) before := by
  by_cases isIf : ∃ pos blocks, statement = .choice pos blocks
  · obtain ⟨pos, blocks, rfl⟩ := isIf
    obtain ⟨several, regularBlocks⟩ := RegularBlocks.of_choice regular
    rw [addStatement]
    cases blocks with
    | nil => exact absurd several (Nat.not_succ_le_zero 1)
    | cons block rest =>
        obtain ⟨name, named⟩ := regularBlocks.exists_nickname several
        have closed : ¬ Node.Open ⟨.decision nickname, [one, two]⟩ :=
          fun isOpen => absurd (isOpen nickname rfl) (Nat.lt_irrefl 2)
        rw [addChoice_cons, addDecision_eq named]
        exact failsOnly_addNode_attach (fun _ => .inl rfl) bounded found fun isOpen => absurd isOpen closed
  · have noIf (note : Pos) (blocks : List (Block Pos)) : statement ≠ .choice note blocks :=
      fun same => isIf ⟨note, blocks, same⟩
    exact failsOnly_addStatement (fun _ => .inl rfl) bounded found (regular _ (mem_walk_self statement)) noIf rfl
      fun _ misses => .inr misses

/-! ## Everything that can go wrong -/

/-- Statements behind a node that is no decision. -/
def FaultsBody (cursor : NodeId) (body : List (Statement Pos)) : Prop :=
  ∀ before node, before.graph.Bounded → before.graph.get? cursor = some node → node.nickname? = none →
    RegularBody body → FailsOnly (FaultIn before.scope body) (addSequence cursor body) before

/-- One statement behind a node that is no decision. -/
def FaultsStatement (cursor : NodeId) (statement : Statement Pos) : Prop :=
  ∀ before node, before.graph.Bounded → before.graph.get? cursor = some node → node.nickname? = none →
    (∀ inner ∈ Statement.walk statement, inner.Regular) →
    FailsOnly (FaultIn before.scope [statement]) (addStatement cursor statement) before

/-- The blocks of an `if` behind an open node. -/
def FaultsChoice (pos : Pos) (cursor : NodeId) (blocks : List (Block Pos)) : Prop :=
  ∀ before node, before.graph.Bounded → before.graph.get? cursor = some node → node.Open →
    2 ≤ blocks.length → RegularBlocks blocks →
    FailsOnly (FaultIn before.scope [.choice pos blocks]) (addChoice pos cursor blocks) before

/-- The later blocks of an `if` behind a decision with one way out. -/
def FaultsRest (pos : Pos) (decision : NodeId) (blocks : List (Block Pos)) : Prop :=
  ∀ before nickname child, before.graph.Bounded →
    before.graph.get? decision = some ⟨.decision nickname, [child]⟩ → RegularBlocks blocks →
    FailsOnly (FaultIn before.scope [.choice pos blocks]) (addLaterBlocks pos decision blocks) before

/-- A block behind an open node. -/
def FaultsBlock (pos : Pos) (parent : NodeId) (block : Block Pos) : Prop :=
  ∀ before node, before.graph.Bounded → before.graph.get? parent = some node → node.Open →
    RegularBody block.body → FailsOnly (FaultIn before.scope [.choice pos [block]]) (addBlock pos parent block) before

theorem faults_choice {block : Block Pos} {rest : List (Block Pos)} (faultsBlock : ∀ id, FaultsBlock pos id block)
    (faultsRest : ∀ id, FaultsRest pos id rest) : FaultsChoice pos cursor (block :: rest) := by
  intro before node bounded found isOpen several regular
  obtain ⟨nickname, named⟩ := regular.exists_nickname several
  have grown := Frame.grow bounded found (.decision nickname)
  have isNew := Graph.get?_grow_nextId (bounded.ne_nextId found) (.decision nickname)
  rw [addChoice_cons, addDecision_eq named]
  refine failsOnly_addNode_attach (fun closed => absurd isOpen closed) bounded found fun _ => failsOnly_bind_pure ?_
  have ofBlock := faultsBlock _ _ _ grown.bounded isNew (fun _ _ => Nat.succ_pos 1) regular.head
  refine (ofBlock.mono fun fault faultIn => ?_).bind fun _ middle runs => ?_
  · exact faultIn.blocks_of_subset (List.cons_subset_cons _ (List.nil_subset _))
  · have frame := framed_addBlock _ _ _ _ _ grown.bounded ⟨_, isNew⟩ runs
    obtain ⟨oneWay, _⟩ := lays_add.2.2.2.1 pos _ _ _ _ _ grown.bounded isNew regular.head.forks runs
    have ofRest := faultsRest _ _ _ _ frame.bounded oneWay regular.tail
    rw [frame.scope] at ofRest
    exact ofRest.mono fun fault faultIn => faultIn.blocks_of_subset (List.subset_cons_self _ _)

/-- Statements of a block behind a new node. -/
theorem faults_behind {condition : Condition} {body : List (Statement Pos)} {content : Content}
    (faults : ∀ id, FaultsBody id body) (bounded : before.graph.Bounded)
    (found : before.graph.get? cursor = some node) (plain : Node.nickname? ⟨content, []⟩ = none)
    (regular : RegularBody body) :
    FailsOnly (FaultIn before.scope [.choice pos [.mk condition body]])
      (addSequence before.graph.nextId body >>= fun _ => pure ()) (before.onGraph (·.grow cursor content)) := by
  have grown := Frame.grow bounded found content
  have isNew := Graph.get?_grow_nextId (bounded.ne_nextId found) content
  have ofBody := faults _ _ _ grown.bounded isNew plain regular
  rw [grown.scope] at ofBody
  exact failsOnly_bind_pure (ofBody.mono fun _ faultIn => faultIn.block)

/-- A block for a group fails if the group is not declared, or in its statements. -/
theorem faults_groupBlock {name : String} {body : List (Statement Pos)} (faults : ∀ id, FaultsBody id body) :
    FaultsBlock pos cursor (.mk (.group name) body) := by
  intro before node bounded found isOpen regular
  rw [addBlock]
  refine FailsOnly.bind ?_ fun factions _ resolved => ?_
  · intro fault after fails
    obtain ⟨unknown, rfl, _⟩ := fails_findGroup_iff.mp fails
    exact .misses List.mem_cons_self (.testedGroup List.mem_cons_self rfl unknown)
  obtain ⟨_, rfl⟩ := runs_findGroup_iff.mp resolved
  refine (failsOnly_newData (fun closed => absurd isOpen closed) found).bind fun id _ made => ?_
  obtain ⟨_, rfl, rfl⟩ := runs_newData_iff.mp made
  refine failsOnly_modifyGraph.bind fun _ _ offered => ?_
  obtain rfl := runs_modifyGraph_iff.mp offered
  rw [onGraph_grow_modifyData bounded found]
  exact faults_behind faults bounded found rfl regular

/-- After an `if` the next statement meets a decision without a free way out. After any other statement
construction goes on behind a node that is no decision. -/
theorem faults_cons {statement : Statement Pos} {rest : List (Statement Pos)}
    (ofStatement : FaultsStatement cursor statement) (ofRest : ∀ id, FaultsBody id rest) :
    FaultsBody cursor (statement :: rest) := by
  intro before node bounded found plain regular
  rw [addSequence]
  refine ((ofStatement before node bounded found plain regular.head).mono fun _ faultIn => faultIn.head).bind ?_
  intro next middle runs
  obtain ⟨frame, _⟩ := framed_add.1 _ _ _ _ _ bounded ⟨node, found⟩ runs
  by_cases isIf : ∃ pos blocks, statement = .choice pos blocks
  · obtain ⟨pos, blocks, rfl⟩ := isIf
    obtain ⟨several, regularBlocks⟩ := RegularBlocks.of_choice regular.head
    obtain ⟨_, _, ⟨nickname, one, two, full⟩, _⟩ :=
      lays_add.2.1 pos cursor blocks _ _ _ _ bounded found regularBlocks.forks several runs
    cases rest with
    | nil => exact failsOnly_pure
    | cons follower others =>
        rw [addSequence]
        have ofFollower := failsOnly_addStatement_of_full frame.bounded full regular.tail.head
        rw [frame.scope] at ofFollower
        refine (ofFollower.mono ?_).bind fun _ _ goesOn => ?_
        · rintro fault (rfl | misses)
          · exact .pastIf .here
          · exact .misses (List.mem_cons_of_mem _ List.mem_cons_self) misses
        · exact absurd goesOn (not_runs_addStatement frame.bounded full follower)
  · have noIf (note : Pos) (blocks : List (Block Pos)) : statement ≠ .choice note blocks :=
      fun same => isIf ⟨note, blocks, same⟩
    obtain ⟨later, foundNext, plainNext⟩ := plain_of_runs_addStatement bounded found plain noIf runs
    have faults := ofRest next middle later frame.bounded foundNext plainNext regular.tail
    rw [frame.scope] at faults
    exact faults.mono fun _ faultIn => faultIn.later

/-- A statement that is no `if`. -/
theorem faults_single {statement : Statement Pos} (noIf : ∀ note blocks, statement ≠ .choice note blocks) :
    FaultsStatement cursor statement := by
  intro before node bounded found plain regular
  refine failsOnly_addStatement (fun closed => absurd (Node.open_of_plain plain) closed) bounded found
    (regular _ (mem_walk_self statement)) noIf rfl fun _ misses => ?_
  exact .misses List.mem_cons_self misses

/-- Construction of regular statements fails only with what is wrong in them. -/
theorem faults_add :
    (∀ cursor statement, FaultsStatement cursor statement) ∧
      (∀ pos cursor blocks, FaultsChoice pos cursor blocks) ∧
      (∀ pos decision blocks, FaultsRest pos decision blocks) ∧
      (∀ pos parent block, FaultsBlock pos parent block) ∧
      (∀ cursor body, FaultsBody cursor body) := by
  apply construction_induction
  -- declarations are not regular, and these statements have nothing inside them
  case sub | group | call | unimplemented | doc | field =>
    intros
    refine faults_single ?_
    rintro _ _ ⟨⟩
  case choice =>
    intro cursor pos blocks ih before node bounded found plain regular
    obtain ⟨several, regularBlocks⟩ := RegularBlocks.of_choice regular
    exact ih before node bounded found (Node.open_of_plain plain) several regularBlocks
  case groupBlock =>
    intro pos parent name body ih
    exact faults_groupBlock ih
  case innerChoice =>
    intro pos parent condition inner blocks notGroup ih before node bounded found isOpen regular
    obtain ⟨several, regularBlocks⟩ := RegularBlocks.of_choice regular.head
    rw [addBlock_innerChoice notGroup]
    refine failsOnly_bind_pure ?_
    exact (ih before node bounded found isOpen several regularBlocks).mono fun _ faultIn => faultIn.block
  case pastChoice =>
    intro pos parent condition note blocks extra tail notGroup before node _ _ _ _ fault after fails
    rw [addBlock_pastChoice notGroup] at fails
    obtain ⟨rfl, _⟩ := fails_fail_iff.mp fails
    exact FaultIn.block (.pastIf .here)
  case plainBlock =>
    intro pos parent condition body notGroup notChoice ih before node bounded found isOpen regular
    rw [addBlock_plain notGroup notChoice]
    refine (failsOnly_newData (fun closed => absurd isOpen closed) found).bind fun id _ made => ?_
    obtain ⟨_, rfl, rfl⟩ := runs_newData_iff.mp made
    exact faults_behind ih bounded found rfl regular
  case noStatement =>
    intro cursor before node _ _ _ _
    exact failsOnly_pure
  case statements =>
    intro cursor statement rest ofStatement ofRest
    exact faults_cons ofStatement ofRest
  case noBlock =>
    intro pos cursor before node _ _ _ several
    exact absurd several (Nat.not_succ_le_zero 1)
  case blocks =>
    intro pos cursor block rest ofBlock ofRest
    exact faults_choice ofBlock ofRest
  case noLaterBlock =>
    intro pos decision before nickname child _ _ _
    exact failsOnly_pure
  case lastBlock =>
    intro pos decision block ih before nickname child bounded found regular
    rw [addLaterBlocks]
    exact ih before _ bounded found (fun _ _ => Nat.lt_succ_self 1) regular.head
  case laterBlocks =>
    intro pos decision block next rest ih before nickname child bounded found regular
    rw [addLaterBlocks_cons_cons]
    exact failsOnly_bind_pure (ih before _ bounded found (fun _ _ => Nat.lt_succ_self 1)
      (Nat.succ_le_succ (Nat.succ_le_succ (Nat.zero_le _))) regular)

/-- What is wrong in one of the bodies. -/
def FaultInBodies (scope : Scope) (bodies : List (NodeId × List (Statement Pos))) (fault : Fault) : Prop :=
  ∃ root body, (root, body) ∈ bodies ∧ FaultIn scope body fault

theorem failsOnly_addBodies {bodies : List (NodeId × List (Statement Pos))} (ready : Ready bodies before)
    (regular : ∀ root body, (root, body) ∈ bodies → RegularBody body) :
    FailsOnly (FaultInBodies before.scope bodies) (addBodies bodies) before := by
  induction bodies generalizing before with
  | nil => exact failsOnly_pure
  | cons first rest ih =>
      obtain ⟨root, body⟩ := first
      have emptyRoot := ready.empty root List.mem_cons_self
      have ofBody := faults_add.2.2.2.2 root body before _ ready.bounded emptyRoot rfl
        (regular root body List.mem_cons_self)
      refine (ofBody.mono fun _ faultIn => ⟨root, body, List.mem_cons_self, faultIn⟩).bind fun last middle runs => ?_
      obtain ⟨frame, _⟩ := framed_addSequence _ _ _ _ _ ready.bounded ⟨_, emptyRoot⟩ runs
      have ofRest := ih (ready.rest runs) fun other statements member =>
        regular other statements (List.mem_cons_of_mem _ member)
      rw [frame.scope] at ofRest
      refine ofRest.mono ?_
      rintro fault ⟨other, statements, member, faultIn⟩
      exact ⟨other, statements, List.mem_cons_of_mem _ member, faultIn⟩

/-- The statements behind the entry are added first, then all bodies that are pending. -/
theorem failsOnly_addScript {statements : List (Statement Pos)}
    (ready : Ready ((Graph.entry, statements) :: before.pending) before)
    (regular : ∀ root body, (root, body) ∈ (Graph.entry, statements) :: before.pending → RegularBody body) :
    FailsOnly (FaultInBodies before.scope ((Graph.entry, statements) :: before.pending)) (addScript statements)
      before := by
  have emptyEntry := ready.empty Graph.entry List.mem_cons_self
  have ofEntry := faults_add.2.2.2.2 Graph.entry statements before _ ready.bounded emptyEntry rfl
    (regular Graph.entry statements List.mem_cons_self)
  refine (ofEntry.mono fun _ faultIn => ⟨_, _, List.mem_cons_self, faultIn⟩).bind fun last middle runs => ?_
  obtain ⟨frame, _⟩ := framed_addSequence _ _ _ _ _ ready.bounded ⟨_, emptyEntry⟩ runs
  have readyRest := ready.rest runs
  refine failsOnly_get_bind (FailsOnly.bind (fun _ _ fails => absurd fails not_fails_modify) fun _ _ cleared => ?_)
  obtain rfl := runs_modify_iff.mp cleared
  rw [frame.pending]
  have readyCleared : Ready before.pending { middle with pending := [] } :=
    ⟨readyRest.bounded, readyRest.different, readyRest.empty, readyRest.forks⟩
  have sameScope : Builder.scope { middle with pending := [] } = before.scope := frame.scope
  have ofPending := failsOnly_addBodies readyCleared fun root body member =>
    regular root body (List.mem_cons_of_mem _ member)
  rw [sameScope] at ofPending
  refine ofPending.mono ?_
  rintro fault ⟨root, body, member, faultIn⟩
  exact ⟨root, body, List.mem_cons_of_mem _ member, faultIn⟩

/-- Once the names of a script are declared, construction fails only with what is wrong in its bodies. -/
theorem failsOnly_addScript_of_declare {script others : List (Statement Pos)} {declared : Builder}
    (regular : ∀ root body, (root, body) ∈ bodiesOf script → RegularBody body)
    (runs : Runs (declare script) start others declared) :
    FailsOnly (FaultInBodies (scopeOf script) (bodiesOf script)) (addScript others) declared := by
  obtain ⟨rfl, facts⟩ := runs_declare runs
  have ready := facts.ready fun root body listed => (regular root body listed).forks
  rw [← facts.bodies] at ready regular ⊢
  rw [← facts.scope]
  exact failsOnly_addScript ready regular

end Builder

end MissionGraph
