import MissionGraph.Proofs.Build.Frame

/-!
# How a script lies in its graph

The layout of statements says which nodes of a finished graph stand for them: what the node under the
cursor holds when the statements begin, which numbers are used up, and how the nodes are linked. The
numbers of a layout are consecutive, so that different parts of a script never share a node.
Construction lays every script out in this way.
-/

namespace MissionGraph

open Mission (Data Factions Field)
open Script (Block Condition Pos Statement)

/-- The groups and subs that statements can refer to. -/
structure Scope where
  groups : List (String × Factions)
  subs : List (String × NodeId)

/-- A piece of a script that is laid out. A body starts at a cursor whose node holds something
already; the rest of an `if` are its blocks after the first. -/
inductive Part (α : Type) where
  | body (cursor : NodeId) (node : Node) (statements : List (Statement α))
  | choice (blocks : List (Block α))
  | rest (blocks : List (Block α))
  | block (block : Block α)

/-- The piece is laid out in the graph with the numbers from the first up to, but without, the last. -/
inductive Layout {α : Type} (graph : Graph) (scope : Scope) : Part α → Nat → Nat → Prop where
  | done {cursor : NodeId} {node : Node} {first : Nat} (found : graph.get? cursor = some node) :
      Layout graph scope (.body cursor node []) first first
  | fieldHere {cursor : NodeId} {data : Data} {children : List NodeId} {note : α} {field : Field}
      {factions : Factions} {statements : List (Statement α)} {first last : Nat}
      (taken : data.accepts (data.kind (!children.isEmpty)) field = true)
      (known : Builder.factionsFor? scope.groups field = some factions)
      (later : Layout graph scope (.body cursor ⟨.data (data.put factions field), children⟩ statements)
        first last) :
      Layout graph scope (.body cursor ⟨.data data, children⟩ (.field note field :: statements)) first last
  | fieldBehind {cursor : NodeId} {node : Node} {note : α} {field : Field} {factions : Factions}
      {statements : List (Statement α)} {first last : Nat} (refused : node.takes field = false)
      (known : Builder.factionsFor? scope.groups field = some factions)
      (found : graph.get? cursor = some (node.leadingTo first))
      (later : Layout graph scope (.body first ⟨.data (Data.empty.put factions field), []⟩ statements)
        (first + 1) last) :
      Layout graph scope (.body cursor node (.field note field :: statements)) first last
  | missingHere {cursor : NodeId} {data : Data} {children : List NodeId} {note : α}
      {statements : List (Statement α)} {first last : Nat}
      (later : Layout graph scope (.body cursor ⟨.data data.missing, children⟩ statements) first last) :
      Layout graph scope (.body cursor ⟨.data data, children⟩ (.unimplemented note :: statements)) first last
  | missingBehind {cursor : NodeId} {node : Node} {note : α} {statements : List (Statement α)}
      {first last : Nat} (other : node.data? = none)
      (found : graph.get? cursor = some (node.leadingTo first))
      (later : Layout graph scope (.body first ⟨.data Data.empty.missing, []⟩ statements)
        (first + 1) last) :
      Layout graph scope (.body cursor node (.unimplemented note :: statements)) first last
  | doc {cursor : NodeId} {node : Node} {note : α} {name : String} {statements : List (Statement α)}
      {first last : Nat} (found : graph.get? cursor = some (node.leadingTo first))
      (later : Layout graph scope (.body first ⟨.documentation name, []⟩ statements) (first + 1) last) :
      Layout graph scope (.body cursor node (.doc note name :: statements)) first last
  | call {cursor : NodeId} {node : Node} {note : α} {name : String} {target : NodeId}
      {statements : List (Statement α)} {first last : Nat}
      (known : scope.subs.lookup name = some target)
      (later : Layout graph scope (.body cursor (node.leadingTo target) statements) first last) :
      Layout graph scope (.body cursor node (.call note name :: statements)) first last
  | choiceBehind {cursor : NodeId} {node : Node} {note : α} {blocks : List (Block α)} {first last : Nat}
      (found : graph.get? cursor = some (node.leadingTo first))
      (inner : Layout graph scope (.choice blocks) first last) :
      Layout graph scope (.body cursor node [.choice note blocks]) first last
  | choice {nickname : String} {block : Block α} {blocks : List (Block α)} {first middle last : Nat}
      (named : block.condition.nickname? = some nickname)
      (found : graph.get? first = some ⟨.decision nickname, [first + 1, middle]⟩)
      (inner : Layout graph scope (.block block) (first + 1) middle)
      (later : Layout graph scope (.rest blocks) middle last) :
      Layout graph scope (.choice (block :: blocks)) first last
  | lastBlock {block : Block α} {first last : Nat} (inner : Layout graph scope (.block block) first last) :
      Layout graph scope (.rest [block]) first last
  | laterBlocks {block next : Block α} {blocks : List (Block α)} {first last : Nat}
      (inner : Layout graph scope (.choice (block :: next :: blocks)) first last) :
      Layout graph scope (.rest (block :: next :: blocks)) first last
  | groupBlock {name : String} {factions : Factions} {body : List (Statement α)} {first last : Nat}
      (known : scope.groups.lookup name = some factions)
      (inner : Layout graph scope
        (.body first ⟨.data (.offeredBy factions), []⟩ body) (first + 1) last) :
      Layout graph scope (.block (.mk (.group name) body)) first last
  | innerChoice {condition : Condition} {note : α} {blocks : List (Block α)} {first last : Nat}
      (notGroup : condition.isGroup = false) (inner : Layout graph scope (.choice blocks) first last) :
      Layout graph scope (.block (.mk condition [.choice note blocks])) first last
  | plainBlock {condition : Condition} {body : List (Statement α)} {first last : Nat}
      (notGroup : condition.isGroup = false)
      (notChoice : ∀ note blocks, body.head? ≠ some (.choice note blocks))
      (inner : Layout graph scope (.body first ⟨.data .empty, []⟩ body) (first + 1) last) :
      Layout graph scope (.block (.mk condition body)) first last

/-- Bodies are laid out one after the other, each from its own node on. -/
inductive Layouts {α : Type} (graph : Graph) (scope : Scope) :
    List (NodeId × List (Statement α)) → Nat → Nat → Prop where
  | nil {first : Nat} : Layouts graph scope [] first first
  | cons {root : NodeId} {body : List (Statement α)} {bodies : List (NodeId × List (Statement α))}
      {first middle last : Nat}
      (head : Layout graph scope (.body root ⟨.data .empty, []⟩ body) first middle)
      (tail : Layouts graph scope bodies middle last) :
      Layouts graph scope ((root, body) :: bodies) first last

/-- Every `if` among the statements has at least two blocks. -/
def Forks {α : Type} (statements : List (Statement α)) : Prop :=
  ∀ note blocks, .choice note blocks ∈ statements → 2 ≤ blocks.length

theorem mem_walkBlocks_cons {α : Type} {statement : Statement α} {block : Block α} {blocks : List (Block α)} :
    statement ∈ Statement.walkBlocks (block :: blocks) ↔
      statement ∈ Statement.walkBody block.body ∨ statement ∈ Statement.walkBlocks blocks := by
  obtain ⟨condition, body⟩ := block
  exact List.mem_append

theorem mem_walkBody_cons {α : Type} {statement head : Statement α} {rest : List (Statement α)} :
    statement ∈ Statement.walkBody (head :: rest) ↔
      statement ∈ Statement.walk head ∨ statement ∈ Statement.walkBody rest :=
  List.mem_append

theorem mem_walk_self {α : Type} (statement : Statement α) : statement ∈ Statement.walk statement := by
  cases statement <;> exact List.mem_cons_self

namespace Forks

variable {α : Type} {statement : Statement α} {rest : List (Statement α)} {block : Block α} {blocks : List (Block α)}

theorem head (forks : Forks (Statement.walkBody (statement :: rest))) : Forks (Statement.walk statement) :=
  fun note blocks member => forks note blocks (mem_walkBody_cons.mpr (.inl member))

theorem tail (forks : Forks (Statement.walkBody (statement :: rest))) : Forks (Statement.walkBody rest) :=
  fun note blocks member => forks note blocks (mem_walkBody_cons.mpr (.inr member))

theorem choice {note : α} (forks : Forks (Statement.walk (.choice note blocks))) :
    2 ≤ blocks.length ∧ Forks (Statement.walkBlocks blocks) :=
  ⟨forks note blocks List.mem_cons_self, fun inner within member => forks inner within (List.mem_cons_of_mem _ member)⟩

theorem firstBlock (forks : Forks (Statement.walkBlocks (block :: blocks))) : Forks (Statement.walkBody block.body) :=
  fun note within member => forks note within (mem_walkBlocks_cons.mpr (.inl member))

theorem otherBlocks (forks : Forks (Statement.walkBlocks (block :: blocks))) : Forks (Statement.walkBlocks blocks) :=
  fun note within member => forks note within (mem_walkBlocks_cons.mpr (.inr member))

end Forks

namespace Builder

/-- What is declared in a builder. -/
def scope (builder : Builder) : Scope :=
  ⟨builder.groups, builder.subs⟩

theorem Frame.scope {cursor : NodeId} {before after : Builder} (frame : Frame cursor before after) :
    after.scope = before.scope := by
  rw [Builder.scope, frame.groups, frame.subs]
  rfl

/-- The graph holds what was built from one builder to another. -/
def Holds (graph : Graph) (before after : Builder) : Prop :=
  ∀ id, before.graph.nextId ≤ id → id < after.graph.nextId → graph.get? id = after.graph.get? id

theorem Holds.later {graph : Graph} {before middle after : Builder} (holds : Holds graph before after)
    (grown : before.graph.nextId ≤ middle.graph.nextId) : Holds graph middle after :=
  fun id new old => holds id (Nat.le_trans grown new) old

/-- What is built behind an older node does not touch what was built before. -/
theorem Holds.earlier {graph : Graph} {before middle after : Builder} {cursor : NodeId}
    (holds : Holds graph before after) (frame : Frame cursor middle after)
    (older : cursor < before.graph.nextId) : Holds graph before middle := by
  intro id new old
  rw [holds id new (Nat.lt_of_lt_of_le old frame.nextId)]
  exact frame.others id old fun same => Nat.lt_irrefl _ (Nat.lt_of_lt_of_le older (same ▸ new))

variable {pos : Pos}

/-- Adding the statements behind the cursor lays them out. -/
def LaysBody (cursor : NodeId) (body : List (Statement Pos)) : Prop :=
  ∀ before after last node graph, before.graph.Bounded → before.graph.get? cursor = some node →
    Forks (Statement.walkBody body) → Runs (addSequence cursor body) before last after →
    graph.get? cursor = after.graph.get? cursor → Holds graph before after →
      Layout graph before.scope (.body cursor node body) before.graph.nextId after.graph.nextId

/-- Adding the statement behind the cursor lays it out together with the statements after it. -/
def LaysStatement (cursor : NodeId) (statement : Statement Pos) : Prop :=
  ∀ rest, (∀ next, LaysBody next rest) → LaysBody cursor (statement :: rest)

/-- Adding the blocks of an `if` behind the cursor lays them out; no way out of the first decision is
left. -/
def LaysChoice (pos : Pos) (cursor : NodeId) (blocks : List (Block Pos)) : Prop :=
  ∀ before after first node, before.graph.Bounded → before.graph.get? cursor = some node →
    Forks (Statement.walkBlocks blocks) → 2 ≤ blocks.length →
    Runs (addChoice pos cursor blocks) before first after →
      first = before.graph.nextId ∧ after.graph.get? cursor = some (node.leadingTo first) ∧
        (∃ nickname one two, after.graph.get? first = some ⟨.decision nickname, [one, two]⟩) ∧
        ∀ graph, Holds graph before after →
          Layout graph before.scope (.choice blocks) before.graph.nextId after.graph.nextId

/-- Adding the later blocks of an `if` behind a decision lays them out and completes the decision. -/
def LaysRest (pos : Pos) (decision : NodeId) (blocks : List (Block Pos)) : Prop :=
  ∀ before after nickname child, before.graph.Bounded →
    before.graph.get? decision = some ⟨.decision nickname, [child]⟩ →
    Forks (Statement.walkBlocks blocks) → blocks ≠ [] →
    Runs (addLaterBlocks pos decision blocks) before () after →
      after.graph.get? decision = some ⟨.decision nickname, [child, before.graph.nextId]⟩ ∧
        ∀ graph, Holds graph before after →
          Layout graph before.scope (.rest blocks) before.graph.nextId after.graph.nextId

/-- Adding a block behind a node lays it out and appends its first node to the children. -/
def LaysBlock (pos : Pos) (parent : NodeId) (block : Block Pos) : Prop :=
  ∀ before after node, before.graph.Bounded → before.graph.get? parent = some node →
    Forks (Statement.walkBody block.body) → Runs (addBlock pos parent block) before () after →
      after.graph.get? parent = some (node.leadingTo before.graph.nextId) ∧
        ∀ graph, Holds graph before after →
          Layout graph before.scope (.block block) before.graph.nextId after.graph.nextId

theorem lays_choice {cursor : NodeId} {block : Block Pos} {rest : List (Block Pos)}
    (laysBlock : ∀ id, LaysBlock pos id block) (laysRest : ∀ id, LaysRest pos id rest) :
    LaysChoice pos cursor (block :: rest) := by
  intro before after first node bounded found forks several runs
  rw [addChoice_cons] at runs
  cases named : block.condition.nickname? with
  | none =>
      obtain ⟨_, _, added, _⟩ := runs_bind_iff.mp runs
      exact absurd added (not_runs_addDecision named)
  | some nickname =>
      rw [addDecision_eq named] at runs
      obtain ⟨_, hung⟩ := (runs_addNode_attach_iff bounded found).mp runs
      obtain ⟨_, _, built, finished⟩ := runs_bind_iff.mp hung
      obtain ⟨rfl, rfl⟩ := runs_pure_iff.mp finished
      obtain ⟨_, middle, runsBlock, runsRest⟩ := runs_bind_iff.mp built
      have different := bounded.ne_nextId found
      have grown := Frame.grow bounded found (.decision nickname)
      have isNew := Graph.get?_grow_nextId different (.decision nickname)
      have nonempty : rest ≠ [] := by
        rintro rfl
        simp at several
      obtain ⟨oneWay, layBlock⟩ := laysBlock _ _ _ _ grown.bounded isNew forks.firstBlock runsBlock
      have frameBlock := framed_addBlock _ _ _ _ _ grown.bounded ⟨_, isNew⟩ runsBlock
      obtain ⟨twoWays, layRest⟩ := laysRest _ _ _ _ _ frameBlock.bounded oneWay forks.otherBlocks nonempty runsRest
      have frameRest := framed_addLaterBlocks _ _ _ _ _ frameBlock.bounded ⟨_, oneWay⟩ runsRest
      have frame := frameBlock.trans frameRest (.inl rfl)
      have newer : before.graph.nextId < (before.onGraph (·.grow cursor (.decision nickname))).graph.nextId := by
        rw [graph_onGraph, Graph.nextId_grow]
        exact Nat.lt_succ_self _
      refine ⟨rfl, ?_, ⟨_, _, _, twoWays⟩, ?_⟩
      · rw [frame.others cursor ?_ different]
        · exact Graph.get?_grow_parent bounded found _
        · rw [graph_onGraph, Graph.nextId_grow]
          exact Nat.lt_succ_of_lt (bounded _ _ found)
      · intro graph holds
        have holdsLater := holds.later grown.nextId
        have layoutBlock := layBlock graph (holdsLater.earlier frameRest newer)
        have layoutRest := layRest graph (holdsLater.later frameBlock.nextId)
        rw [graph_onGraph, Graph.nextId_grow] at layoutBlock
        rw [frameBlock.scope] at layoutRest
        refine .choice named ?_ layoutBlock layoutRest
        rw [holds _ (Nat.le_refl _) (Nat.lt_of_lt_of_le newer frame.nextId), twoWays, graph_onGraph,
          Graph.nextId_grow]

/-- Nothing can be added behind a decision without a free way out. -/
theorem not_runs_addStatement {cursor next one two : NodeId} {nickname : String}
    {before after : Builder} (bounded : before.graph.Bounded)
    (found : before.graph.get? cursor = some ⟨.decision nickname, [one, two]⟩)
    (statement : Statement Pos) : ¬ Runs (addStatement cursor statement) before next after := by
  have closed : ¬ Node.Open ⟨.decision nickname, [one, two]⟩ :=
    fun isOpen => absurd (isOpen nickname rfl) (by simp)
  intro runs
  cases statement with
  | sub pos name body => exact not_runs_fail runs
  | group pos group => exact not_runs_fail runs
  | choice pos blocks =>
      rw [addStatement] at runs
      cases blocks with
      | nil => exact not_runs_fail runs
      | cons block rest =>
          rw [addChoice_cons] at runs
          cases named : block.condition.nickname? with
          | none =>
              obtain ⟨_, _, added, _⟩ := runs_bind_iff.mp runs
              exact not_runs_addDecision named added
          | some nickname =>
              rw [addDecision_eq named] at runs
              exact closed ((runs_addNode_attach_iff bounded found).mp runs).1
  | call pos name =>
      rw [addStatement] at runs
      obtain ⟨_, _, resolved, following⟩ := runs_bind_iff.mp runs
      obtain ⟨_, rfl⟩ := runs_findSub_iff.mp resolved
      obtain ⟨_, _, attached, _⟩ := runs_bind_iff.mp following
      obtain ⟨⟨_, foundAgain, isOpen⟩, _⟩ := runs_attach_iff.mp attached
      rw [found] at foundAgain
      cases foundAgain
      exact closed isOpen
  | unimplemented pos =>
      rw [addStatement] at runs
      exact closed ((runs_addUnimplemented_other_iff bounded found rfl).mp runs).1
  | doc pos name =>
      rw [addStatement] at runs
      exact closed ((runs_addNode_attach_iff bounded found).mp runs).1
  | field pos field =>
      rw [addStatement] at runs
      obtain ⟨_, _, ⟨taken, _⟩ | ⟨_, isOpen, _⟩⟩ := (runs_addField_iff bounded found).mp runs
      · cases taken
      · exact closed isOpen

/-- Statements behind a new node are laid out from that node on, and the cursor's node leads to it. -/
theorem lays_behind {before after : Builder} {cursor last : NodeId} {node : Node}
    {content : Content} {body : List (Statement Pos)} (lays : ∀ next, LaysBody next body)
    (bounded : before.graph.Bounded) (found : before.graph.get? cursor = some node)
    (forks : Forks (Statement.walkBody body))
    (runs : Runs (addSequence before.graph.nextId body) (before.onGraph (·.grow cursor content)) last after) :
    after.graph.get? cursor = some (node.leadingTo before.graph.nextId) ∧
      ∀ graph, Holds graph before after → Layout graph before.scope
        (.body before.graph.nextId ⟨content, []⟩ body) (before.graph.nextId + 1) after.graph.nextId := by
  have different := bounded.ne_nextId found
  have grown := Frame.grow bounded found content
  have isNew := Graph.get?_grow_nextId different content
  obtain ⟨frame, _, _⟩ := framed_addSequence _ _ _ _ _ grown.bounded ⟨_, isNew⟩ runs
  have newer : before.graph.nextId < (before.onGraph (·.grow cursor content)).graph.nextId := by
    rw [graph_onGraph, Graph.nextId_grow]
    exact Nat.lt_succ_self _
  constructor
  · rw [frame.others cursor (Nat.lt_trans (bounded _ _ found) newer) different]
    exact Graph.get?_grow_parent bounded found content
  · intro graph holds
    have atNew := holds _ (Nat.le_refl _) (Nat.lt_of_lt_of_le newer frame.nextId)
    have layout := lays _ _ _ _ _ _ grown.bounded isNew forks runs atNew (holds.later grown.nextId)
    rw [graph_onGraph, Graph.nextId_grow] at layout
    exact layout

/-- Statements go on at the cursor after its node has been changed. -/
theorem lays_here {before after : Builder} {cursor last : NodeId} {node : Node} {graph : Graph}
    {change : Node → Node} {body : List (Statement Pos)} (lays : ∀ next, LaysBody next body)
    (bounded : before.graph.Bounded) (found : before.graph.get? cursor = some node)
    (forks : Forks (Statement.walkBody body))
    (runs : Runs (addSequence cursor body) (before.onGraph (·.modify cursor change)) last after)
    (atCursor : graph.get? cursor = after.graph.get? cursor) (holds : Holds graph before after) :
    Layout graph before.scope (.body cursor (change node) body) before.graph.nextId
      after.graph.nextId := by
  have frame := Frame.modify cursor bounded change
  have changed : (before.onGraph (·.modify cursor change)).graph.get? cursor = some (change node) := by
    rw [graph_onGraph, Graph.get?_modify, if_pos rfl, found]
    rfl
  have layout := lays _ _ _ _ _ _ frame.bounded changed forks runs atCursor (holds.later frame.nextId)
  rw [graph_onGraph, Graph.nextId_modify] at layout
  exact layout

/-! ## Single statements -/

variable {cursor : NodeId} {blocks : List (Block Pos)} {body : List (Statement Pos)}

/-- An `if` lets no statement follow it, since both ways out of its first decision are taken. -/
theorem lays_choiceStatement (lays : LaysChoice pos cursor blocks) : LaysStatement cursor (.choice pos blocks) := by
  intro rest _ before after last node graph bounded found forks runs atCursor holds
  rw [addSequence, addStatement] at runs
  obtain ⟨first, middle, added, following⟩ := runs_bind_iff.mp runs
  obtain ⟨several, forksBlocks⟩ := forks.head.choice
  obtain ⟨rfl, leading, ⟨nickname, one, two, complete⟩, lay⟩ := lays _ _ _ _ bounded found forksBlocks several added
  cases rest with
  | nil =>
      obtain ⟨_, rfl⟩ := runs_pure_iff.mp following
      exact .choiceBehind (atCursor.trans leading) (lay graph holds)
  | cons statement rest =>
      obtain ⟨_, _, impossible, _⟩ := runs_bind_iff.mp following
      have frame := (framed_add.2.1 _ _ _ _ _ _ bounded ⟨_, found⟩ added).1
      exact absurd impossible (not_runs_addStatement frame.bounded complete statement)

theorem lays_call (name : String) : LaysStatement cursor (.call pos name) := by
  intro rest laysRest before after last node graph bounded found forks runs atCursor holds
  rw [addSequence, addStatement] at runs
  obtain ⟨next, middle, added, following⟩ := runs_bind_iff.mp runs
  obtain ⟨target, _, resolved, linking⟩ := runs_bind_iff.mp added
  obtain ⟨known, rfl⟩ := runs_findSub_iff.mp resolved
  obtain ⟨_, _, attached, finished⟩ := runs_bind_iff.mp linking
  obtain ⟨_, rfl⟩ := runs_attach_iff.mp attached
  obtain ⟨rfl, rfl⟩ := runs_pure_iff.mp finished
  exact .call known (lays_here laysRest bounded found forks.tail following atCursor holds)

theorem lays_unimplemented : LaysStatement cursor (.unimplemented pos) := by
  intro rest laysRest before after last node graph bounded found forks runs atCursor holds
  rw [addSequence, addStatement] at runs
  obtain ⟨next, middle, added, following⟩ := runs_bind_iff.mp runs
  cases isData : node.data? with
  | none =>
      obtain ⟨_, rfl, rfl⟩ := (runs_addUnimplemented_other_iff bounded found isData).mp added
      obtain ⟨leading, lay⟩ := lays_behind laysRest bounded found forks.tail following
      exact .missingBehind isData (atCursor.trans leading) (lay graph holds)
  | some data =>
      obtain ⟨content, children⟩ := node
      cases content with
      | data data =>
          obtain ⟨rfl, rfl⟩ := (runs_addUnimplemented_data_iff found).mp added
          exact .missingHere (lays_here laysRest bounded found forks.tail following atCursor holds)
      | decision _ => cases isData
      | documentation _ => cases isData
      | choice _ => cases isData

theorem lays_doc (name : String) : LaysStatement cursor (.doc pos name) := by
  intro rest laysRest before after last node graph bounded found forks runs atCursor holds
  rw [addSequence, addStatement] at runs
  obtain ⟨next, middle, added, following⟩ := runs_bind_iff.mp runs
  obtain ⟨_, finished⟩ := (runs_addNode_attach_iff bounded found).mp added
  obtain ⟨rfl, rfl⟩ := runs_pure_iff.mp finished
  obtain ⟨leading, lay⟩ := lays_behind laysRest bounded found forks.tail following
  exact .doc (atCursor.trans leading) (lay graph holds)

/-- A field goes into the cursor's node if that takes it, otherwise into a new one. -/
theorem lays_field (field : Field) : LaysStatement cursor (.field pos field) := by
  intro rest laysRest before after last node graph bounded found forks runs atCursor holds
  rw [addSequence, addStatement] at runs
  obtain ⟨next, middle, added, following⟩ := runs_bind_iff.mp runs
  obtain ⟨factions, known, ⟨taken, rfl, rfl⟩ | ⟨refused, _, rfl, rfl⟩⟩ := (runs_addField_iff bounded found).mp added
  · obtain ⟨content, children⟩ := node
    cases content with
    | data data =>
        exact .fieldHere taken known (lays_here laysRest bounded found forks.tail following atCursor holds)
    | decision _ => cases taken
    | documentation _ => cases taken
    | choice _ => cases taken
  · obtain ⟨leading, lay⟩ := lays_behind laysRest bounded found forks.tail following
    exact .fieldBehind refused known (atCursor.trans leading) (lay graph holds)

/-! ## Blocks -/

variable {parent : NodeId} {condition : Condition}

theorem lays_groupBlock {name : String} (lays : ∀ id, LaysBody id body) :
    LaysBlock pos parent (.mk (.group name) body) := by
  intro before after node bounded found forks runs
  rw [addBlock] at runs
  obtain ⟨factions, _, resolved, following⟩ := runs_bind_iff.mp runs
  obtain ⟨known, rfl⟩ := runs_findGroup_iff.mp resolved
  obtain ⟨_, _, made, naming⟩ := runs_bind_iff.mp following
  obtain ⟨_, rfl, rfl⟩ := runs_newData_iff.mp made
  obtain ⟨_, _, named, adding⟩ := runs_bind_iff.mp naming
  obtain rfl := runs_modifyGraph_iff.mp named
  obtain ⟨_, _, added, finished⟩ := runs_bind_iff.mp adding
  obtain ⟨_, rfl⟩ := runs_pure_iff.mp finished
  rw [onGraph_grow_modifyData bounded found] at added
  obtain ⟨leading, lay⟩ := lays_behind lays bounded found forks added
  exact ⟨leading, fun graph holds => .groupBlock known (lay graph holds)⟩

theorem lays_innerChoice {inner : Pos} (notGroup : condition.isGroup = false) (lays : LaysChoice inner parent blocks) :
    LaysBlock pos parent (.mk condition [.choice inner blocks]) := by
  intro before after node bounded found forks runs
  rw [addBlock_innerChoice notGroup] at runs
  obtain ⟨_, _, added, finished⟩ := runs_bind_iff.mp runs
  obtain ⟨_, rfl⟩ := runs_pure_iff.mp finished
  obtain ⟨several, forksBlocks⟩ := forks.head.choice
  obtain ⟨rfl, leading, _, lay⟩ := lays _ _ _ _ bounded found forksBlocks several added
  exact ⟨leading, fun graph holds => .innerChoice notGroup (lay graph holds)⟩

theorem lays_plainBlock (notGroup : condition.isGroup = false)
    (notChoice : ∀ note blocks, body.head? ≠ some (.choice note blocks)) (lays : ∀ id, LaysBody id body) :
    LaysBlock pos parent (.mk condition body) := by
  intro before after node bounded found forks runs
  rw [addBlock_plain notGroup notChoice] at runs
  obtain ⟨_, _, made, adding⟩ := runs_bind_iff.mp runs
  obtain ⟨_, rfl, rfl⟩ := runs_newData_iff.mp made
  obtain ⟨_, _, added, finished⟩ := runs_bind_iff.mp adding
  obtain ⟨_, rfl⟩ := runs_pure_iff.mp finished
  obtain ⟨leading, lay⟩ := lays_behind lays bounded found forks added
  exact ⟨leading, fun graph holds => .plainBlock notGroup notChoice (lay graph holds)⟩

/-- Several later blocks are laid out like an `if` of their own. -/
theorem lays_laterBlocks {decision : NodeId} {block next : Block Pos} {rest : List (Block Pos)}
    (lays : LaysChoice pos decision (block :: next :: rest)) : LaysRest pos decision (block :: next :: rest) := by
  intro before after nickname child bounded found forks _ runs
  rw [addLaterBlocks_cons_cons] at runs
  obtain ⟨_, _, added, finished⟩ := runs_bind_iff.mp runs
  obtain ⟨_, rfl⟩ := runs_pure_iff.mp finished
  obtain ⟨rfl, leading, _, lay⟩ := lays _ _ _ _ bounded found forks (by simp) added
  exact ⟨leading, fun graph holds => .laterBlocks (lay graph holds)⟩

/-- Adding a statement, an `if`, later blocks, a block or a sequence lays it out. -/
theorem lays_add :
    (∀ cursor statement, LaysStatement cursor statement) ∧
      (∀ pos cursor blocks, LaysChoice pos cursor blocks) ∧
      (∀ pos decision blocks, LaysRest pos decision blocks) ∧
      (∀ pos parent block, LaysBlock pos parent block) ∧
      (∀ cursor body, LaysBody cursor body) := by
  apply construction_induction
  case sub | group =>
    intros
    intro rest _ before after last node graph _ _ _ runs
    obtain ⟨_, _, failed, _⟩ := runs_bind_iff.mp runs
    exact absurd failed not_runs_fail
  case choice =>
    intro cursor pos blocks ih
    exact lays_choiceStatement ih
  case call =>
    intro cursor pos name
    exact lays_call name
  case unimplemented =>
    intro cursor pos
    exact lays_unimplemented
  case doc =>
    intro cursor pos name
    exact lays_doc name
  case field =>
    intro cursor pos field
    exact lays_field field
  case groupBlock =>
    intro pos parent name body ih
    exact lays_groupBlock ih
  case innerChoice =>
    intro pos parent condition inner blocks notGroup ih
    exact lays_innerChoice notGroup ih
  case pastChoice =>
    intro pos parent condition note blocks extra tail notGroup before after node _ _ _ runs
    rw [addBlock_pastChoice notGroup] at runs
    exact absurd runs not_runs_fail
  case plainBlock =>
    intro pos parent condition body notGroup notChoice ih
    exact lays_plainBlock notGroup notChoice ih
  case noStatement =>
    intro cursor before after last node graph bounded found _ runs atCursor _
    obtain ⟨rfl, rfl⟩ := runs_pure_iff.mp runs
    exact .done (atCursor.trans found)
  case statements =>
    intro cursor statement rest ofStatement ofRest
    exact ofStatement rest ofRest
  case noBlock =>
    intro pos cursor before after first node _ _ _ _ runs
    exact absurd runs not_runs_fail
  case blocks =>
    intro pos cursor block rest ofBlock ofRest
    exact lays_choice ofBlock ofRest
  case noLaterBlock =>
    intro pos decision before after nickname child _ _ _ nonempty
    exact absurd rfl nonempty
  case lastBlock =>
    intro pos decision block ih before after nickname child bounded found forks _ runs
    rw [addLaterBlocks] at runs
    obtain ⟨leading, lay⟩ := ih _ _ _ bounded found forks.firstBlock runs
    exact ⟨leading, fun graph holds => .lastBlock (lay graph holds)⟩
  case laterBlocks =>
    intro pos decision block next rest ih
    exact lays_laterBlocks ih

end Builder

end MissionGraph
