import MissionGraph.Proofs.Build.Steps
import MissionGraph.Script.Check

/-!
# What construction does and what it leaves alone

Statements are added behind a cursor in a few kinds of moves. Apart from the cursor's node, the nodes that were stored
before stay as they are, and the declarations do not change.
-/

namespace MissionGraph.Builder

open Mission (Data Field)
open Script (Block Pos Statement callOf? callsIn)

/-- What a construction behind a cursor keeps. -/
structure Frame (cursor : NodeId) (before after : Builder) : Prop where
  groups : after.groups = before.groups
  subs : after.subs = before.subs
  pending : after.pending = before.pending
  nextId : before.graph.nextId ≤ after.graph.nextId
  bounded : after.graph.Bounded
  stored : ∀ id node, before.graph.get? id = some node → ∃ later, after.graph.get? id = some later
  others : ∀ id, id < before.graph.nextId → id ≠ cursor → after.graph.get? id = before.graph.get? id

namespace Frame

variable {before middle after : Builder} {cursor next : NodeId} {node : Node}

theorem refl (bounded : before.graph.Bounded) : Frame cursor before before where
  groups := rfl
  subs := rfl
  pending := rfl
  nextId := Nat.le_refl _
  bounded := bounded
  stored := fun _ node found => ⟨node, found⟩
  others := fun _ _ _ => rfl

/-- Construction can go on behind the same cursor or behind a new one. -/
theorem trans (first : Frame cursor before middle) (second : Frame next middle after)
    (moved : next = cursor ∨ before.graph.nextId ≤ next) : Frame cursor before after where
  groups := second.groups.trans first.groups
  subs := second.subs.trans first.subs
  pending := second.pending.trans first.pending
  nextId := Nat.le_trans first.nextId second.nextId
  bounded := second.bounded
  stored := by
    intro id node found
    obtain ⟨later, foundLater⟩ := first.stored id node found
    exact second.stored id later foundLater
  others := by
    intro id old other
    have notNext : id ≠ next := by
      rintro rfl
      rcases moved with same | new
      · exact other same
      · exact Nat.lt_irrefl _ (Nat.lt_of_lt_of_le old new)
    rw [second.others id (Nat.lt_of_lt_of_le old first.nextId) notNext, first.others id old other]

/-- Changing the node under the cursor. -/
theorem modify (cursor : NodeId) (bounded : before.graph.Bounded) (change : Node → Node) :
    Frame cursor before (before.onGraph (·.modify cursor change)) where
  groups := rfl
  subs := rfl
  pending := rfl
  nextId := by
    rw [graph_onGraph]
    exact Nat.le_of_eq (Graph.nextId_modify _ _ _).symm
  bounded := by
    intro id node found
    rw [graph_onGraph, Graph.nextId_modify]
    rw [graph_onGraph, Graph.get?_modify] at found
    split at found
    · obtain ⟨old, foundOld, _⟩ := Option.map_eq_some_iff.mp found
      exact bounded id old foundOld
    · exact bounded id node found
  stored := by
    intro id node found
    rw [graph_onGraph, Graph.get?_modify, found]
    split
    · exact ⟨_, rfl⟩
    · exact ⟨_, rfl⟩
  others := by
    intro id _ other
    rw [graph_onGraph, Graph.get?_modify, if_neg (fun same => other same.symm)]

/-- Changing the data under the cursor. -/
theorem modifyData (cursor : NodeId) (bounded : before.graph.Bounded) (change : Data → Data) :
    Frame cursor before (before.onGraph (·.modifyData cursor change)) :=
  modify cursor bounded _

/-- Appending a new node to the children of the cursor's node. -/
theorem grow (bounded : before.graph.Bounded) (found : before.graph.get? cursor = some node)
    (content : Content) : Frame cursor before (before.onGraph (·.grow cursor content)) where
  groups := rfl
  subs := rfl
  pending := rfl
  nextId := by
    rw [graph_onGraph, Graph.nextId_grow]
    exact Nat.le_succ _
  bounded := bounded.grow found content
  stored := by
    intro id old foundOld
    rw [graph_onGraph, Graph.get?_grow (bounded.ne_nextId found), if_neg (bounded.ne_nextId foundOld),
      foundOld]
    split
    · exact ⟨_, rfl⟩
    · exact ⟨_, rfl⟩
  others := by
    intro id old other
    exact Graph.get?_grow_of_ne (bounded.ne_nextId found) content old other

end Frame

/-- A construction behind a cursor, with the calls it makes and the cursor it ends at. -/
inductive Moves : NodeId → List (Pos × String) → Builder → NodeId → Builder → Prop where
  | stay (cursor : NodeId) (builder : Builder) : Moves cursor [] builder cursor builder
  | change (cursor : NodeId) (before : Builder) (change : Data → Data) :
      Moves cursor [] before cursor (before.onGraph (·.modifyData cursor change))
  | grow {cursor : NodeId} {before : Builder} {node : Node} (found : before.graph.get? cursor = some node)
      (content : Content) : Moves cursor [] before before.graph.nextId (before.onGraph (·.grow cursor content))
  | call {cursor target : NodeId} {before : Builder} {node : Node} {name : String} (pos : Pos)
      (found : before.graph.get? cursor = some node) (known : before.subs.lookup name = some target) :
      Moves cursor [(pos, name)] before cursor (before.onGraph (·.link cursor target))
  | andThen {cursor next last : NodeId} {calls others : List (Pos × String)} {before middle after : Builder}
      (first : Moves cursor calls before next middle) (second : Moves next others middle last after) :
      Moves cursor (calls ++ others) before last after
  | back {cursor last : NodeId} {calls : List (Pos × String)} {before after : Builder}
      (moves : Moves cursor calls before last after) : Moves cursor calls before cursor after

/-- Moves behind a cursor keep its frame, and the cursor they end at is the same or new. -/
theorem Moves.frame {cursor last : NodeId} {calls : List (Pos × String)} {before after : Builder}
    (moves : Moves cursor calls before last after) (bounded : before.graph.Bounded)
    (stored : ∃ node, before.graph.get? cursor = some node) :
    Frame cursor before after ∧ (last = cursor ∨ before.graph.nextId ≤ last) ∧
      ∃ node, after.graph.get? last = some node := by
  induction moves with
  | stay cursor builder => exact ⟨.refl bounded, .inl rfl, stored⟩
  | change cursor before change =>
      obtain ⟨node, found⟩ := stored
      have frame := Frame.modifyData cursor bounded change
      exact ⟨frame, .inl rfl, frame.stored _ _ found⟩
  | grow found content =>
      refine ⟨.grow bounded found content, .inr (Nat.le_refl _), ?_⟩
      exact ⟨_, Graph.get?_grow_nextId (bounded.ne_nextId found) content⟩
  | @call cursor target before node name pos found known =>
      have frame := Frame.modify cursor bounded fun node => { node with children := node.children ++ [target] }
      exact ⟨frame, .inl rfl, frame.stored _ _ found⟩
  | andThen first second ihFirst ihSecond =>
      obtain ⟨frame, moved, storedNext⟩ := ihFirst bounded stored
      obtain ⟨frameRest, movedRest, storedLast⟩ := ihSecond frame.bounded storedNext
      refine ⟨frame.trans frameRest moved, ?_, storedLast⟩
      rcases movedRest with rfl | new
      · exact moved
      · exact .inr (Nat.le_trans frame.nextId new)
  | back moves ih =>
      obtain ⟨node, found⟩ := stored
      obtain ⟨frame, _, _⟩ := ih bounded ⟨node, found⟩
      exact ⟨frame, .inl rfl, frame.stored _ _ found⟩

/-- A step that only moves behind a cursor, with the given calls. -/
def Moving (cursor : NodeId) (calls : List (Pos × String)) (step : Build NodeId) : Prop :=
  ∀ before after last, before.graph.Bounded → (∃ node, before.graph.get? cursor = some node) →
    Runs step before last after → Moves cursor calls before last after

/-- A step that only moves behind a node and ends there. -/
def MovingBlocks (parent : NodeId) (calls : List (Pos × String)) (step : Build Unit) : Prop :=
  ∀ before after, before.graph.Bounded → (∃ node, before.graph.get? parent = some node) →
    Runs step before () after → Moves parent calls before parent after

variable {pos : Pos} {cursor : NodeId} {calls others : List (Pos × String)}

theorem moving_addField (field : Field) : Moving cursor [] (addField pos cursor field) := by
  rintro before after last bounded ⟨node, found⟩ runs
  obtain ⟨factions, _, ⟨_, rfl, rfl⟩ | ⟨_, _, rfl, rfl⟩⟩ := (runs_addField_iff bounded found).mp runs
  · exact .change last before _
  · exact .grow found _

theorem moving_addUnimplemented : Moving cursor [] (addUnimplemented pos cursor) := by
  rintro before after last bounded ⟨node, found⟩ runs
  by_cases isData : node.data? = none
  · obtain ⟨_, rfl, rfl⟩ := (runs_addUnimplemented_other_iff bounded found isData).mp runs
    exact .grow found _
  · obtain ⟨content, children⟩ := node
    cases content with
    | data data =>
        obtain ⟨rfl, rfl⟩ := (runs_addUnimplemented_data_iff found).mp runs
        exact .change last before _
    | decision _ => exact absurd rfl isData
    | documentation _ => exact absurd rfl isData
    | choice _ => exact absurd rfl isData

theorem moving_addChoice {block : Block Pos} {rest : List (Block Pos)}
    (movingBlock : ∀ id, MovingBlocks id calls (addBlock pos id block))
    (movingRest : ∀ id, MovingBlocks id others (addLaterBlocks pos id rest)) :
    Moving cursor (calls ++ others) (addChoice pos cursor (block :: rest)) := by
  rintro before after last bounded ⟨node, found⟩ runs
  rw [addChoice_cons] at runs
  cases named : block.condition.nickname? with
  | none =>
      obtain ⟨_, _, added, _⟩ := runs_bind_iff.mp runs
      exact absurd added (not_runs_addDecision named)
  | some nickname =>
      rw [addDecision_eq named] at runs
      obtain ⟨_, runs⟩ := (runs_addNode_attach_iff bounded found).mp runs
      obtain ⟨_, _, hung, runs⟩ := runs_bind_iff.mp runs
      obtain ⟨rfl, rfl⟩ := runs_pure_iff.mp runs
      obtain ⟨_, _, inBlock, inRest⟩ := runs_bind_iff.mp hung
      have grown := Moves.grow found (.decision nickname)
      obtain ⟨frame, _, stored⟩ := grown.frame bounded ⟨node, found⟩
      have first := movingBlock _ _ _ frame.bounded stored inBlock
      obtain ⟨frameBlock, _, storedStill⟩ := first.frame frame.bounded stored
      exact grown.andThen (first.andThen (movingRest _ _ _ frameBlock.bounded storedStill inRest))

/-- The node of a block, then the statements of the block behind it. -/
theorem moving_newData {parent : NodeId} {next : NodeId → Build Unit}
    (later : ∀ id, MovingBlocks id calls (next id)) : MovingBlocks parent calls (newData pos parent >>= next) := by
  rintro before after bounded ⟨node, found⟩ runs
  obtain ⟨_, _, made, runs⟩ := runs_bind_iff.mp runs
  obtain ⟨_, rfl, rfl⟩ := runs_newData_iff.mp made
  have grown := Moves.grow found (.data .empty)
  obtain ⟨frame, _, stored⟩ := grown.frame bounded ⟨node, found⟩
  exact (grown.andThen (later _ _ _ frame.bounded stored runs)).back

/-- A construction whose last cursor is not used any more. -/
theorem Moving.ignoring {step : Build NodeId} (moving : Moving cursor calls step) :
    MovingBlocks cursor calls (step >>= fun _ => pure ()) := by
  intro before after bounded stored runs
  obtain ⟨_, _, first, second⟩ := runs_bind_iff.mp runs
  obtain ⟨_, rfl⟩ := runs_pure_iff.mp second
  exact (moving _ _ _ bounded stored first).back

/-- A call of a sub. -/
theorem moving_call (name : String) : Moving cursor [(pos, name)]
    (findSub pos name >>= fun target => attach pos cursor target >>= fun _ => pure cursor) := by
  rintro before after last bounded ⟨node, found⟩ runs
  obtain ⟨target, _, resolved, following⟩ := runs_bind_iff.mp runs
  obtain ⟨known, rfl⟩ := runs_findSub_iff.mp resolved
  obtain ⟨_, _, attached, finished⟩ := runs_bind_iff.mp following
  obtain ⟨_, rfl⟩ := runs_attach_iff.mp attached
  obtain ⟨rfl, rfl⟩ := runs_pure_iff.mp finished
  exact .call pos found known

/-- The node of a block for a group, with the name of the group, then the statements of the block behind it. -/
theorem moving_groupBlock {parent : NodeId} {name : String} {body : List (Statement Pos)}
    (later : ∀ id, Moving id calls (addSequence id body)) :
    MovingBlocks parent calls (addBlock pos parent (.mk (.group name) body)) := by
  intro before after bounded stored runs
  rw [addBlock] at runs
  obtain ⟨factions, _, resolved, following⟩ := runs_bind_iff.mp runs
  obtain ⟨_, rfl⟩ := runs_findGroup_iff.mp resolved
  refine moving_newData (fun id => ?_) _ _ bounded stored following
  intro before after bounded stored runs
  obtain ⟨_, _, named, following⟩ := runs_bind_iff.mp runs
  obtain rfl := runs_modifyGraph_iff.mp named
  have changed := Moves.change id before fun data => { data with offerGroup := some factions }
  obtain ⟨frame, _, storedStill⟩ := changed.frame bounded stored
  exact changed.andThen ((later id).ignoring _ _ frame.bounded storedStill following)

/-- One statement, then the others behind the cursor it ends at. -/
theorem moving_cons {statement : Statement Pos} {rest : List (Statement Pos)}
    (first : Moving cursor calls (addStatement cursor statement))
    (later : ∀ next, Moving next others (addSequence next rest)) :
    Moving cursor (calls ++ others) (addSequence cursor (statement :: rest)) := by
  intro before after last bounded stored runs
  rw [addSequence] at runs
  obtain ⟨next, _, runsFirst, runsLater⟩ := runs_bind_iff.mp runs
  have moves := first _ _ _ bounded stored runsFirst
  obtain ⟨frame, _, storedNext⟩ := moves.frame bounded stored
  exact moves.andThen (later next _ _ _ frame.bounded storedNext runsLater)

theorem calls_walkBlocks_cons (block : Block Pos) (rest : List (Block Pos)) :
    (Statement.walkBlocks (block :: rest)).filterMap callOf? =
      callsIn block.body ++ (Statement.walkBlocks rest).filterMap callOf? := by
  obtain ⟨condition, body⟩ := block
  exact List.filterMap_append

/-- Adding a statement, an `if`, later blocks, a block or a sequence makes the calls inside it. -/
theorem moving_add :
    (∀ cursor statement, Moving cursor (statement.walk.filterMap callOf?) (addStatement cursor statement)) ∧
      (∀ pos cursor blocks,
        Moving cursor ((Statement.walkBlocks blocks).filterMap callOf?) (addChoice pos cursor blocks)) ∧
      (∀ pos decision blocks,
        MovingBlocks decision ((Statement.walkBlocks blocks).filterMap callOf?) (addLaterBlocks pos decision blocks)) ∧
      (∀ pos parent block, MovingBlocks parent (callsIn block.body) (addBlock pos parent block)) ∧
      (∀ cursor statements, Moving cursor (callsIn statements) (addSequence cursor statements)) := by
  apply construction_induction
  case sub | group =>
    intros
    intro before after last bounded stored runs
    exact absurd runs not_runs_fail
  case choice =>
    intro cursor pos blocks ih
    rw [addStatement]
    exact ih
  case call =>
    intro cursor pos name
    rw [addStatement]
    exact moving_call name
  case unimplemented =>
    intro cursor pos
    rw [addStatement]
    exact moving_addUnimplemented
  case doc =>
    rintro cursor pos name before after last bounded ⟨node, found⟩ runs
    rw [addStatement] at runs
    obtain ⟨_, runs⟩ := (runs_addNode_attach_iff bounded found).mp runs
    obtain ⟨rfl, rfl⟩ := runs_pure_iff.mp runs
    exact .grow found _
  case field =>
    intro cursor pos field
    rw [addStatement]
    exact moving_addField field
  case groupBlock =>
    intro pos parent name body ih
    exact moving_groupBlock ih
  case innerChoice =>
    intro pos parent condition inner blocks notGroup ih
    rw [addBlock_innerChoice notGroup, Block.body, callsIn, Statement.walkBody, Statement.walkBody, List.append_nil]
    exact ih.ignoring
  case pastChoice =>
    intro pos parent condition note blocks extra tail notGroup before after bounded stored runs
    rw [addBlock_pastChoice notGroup] at runs
    exact absurd runs not_runs_fail
  case plainBlock =>
    intro pos parent condition body notGroup notChoice ih
    rw [addBlock_plain notGroup notChoice]
    exact moving_newData fun id => (ih id).ignoring
  case noStatement =>
    intro cursor before after last bounded stored runs
    rw [addSequence] at runs
    obtain ⟨rfl, rfl⟩ := runs_pure_iff.mp runs
    exact .stay last after
  case statements =>
    intro cursor statement rest ofStatement ofRest
    rw [callsIn, Statement.walkBody, List.filterMap_append]
    exact moving_cons ofStatement ofRest
  case noBlock =>
    intro pos cursor before after last bounded stored runs
    exact absurd runs not_runs_fail
  case blocks =>
    intro pos cursor block rest ofBlock ofRest
    rw [calls_walkBlocks_cons]
    exact moving_addChoice ofBlock ofRest
  case noLaterBlock =>
    intro pos decision before after bounded stored runs
    rw [addLaterBlocks] at runs
    obtain ⟨_, rfl⟩ := runs_pure_iff.mp runs
    exact .stay decision after
  case lastBlock =>
    intro pos decision block ih
    rw [addLaterBlocks, calls_walkBlocks_cons]
    simpa [Statement.walkBlocks] using ih
  case laterBlocks =>
    intro pos decision block next rest ih
    rw [addLaterBlocks_cons_cons]
    exact ih.ignoring

theorem moving_addSequence (cursor : NodeId) (statements : List (Statement Pos)) :
    Moving cursor (callsIn statements) (addSequence cursor statements) :=
  moving_add.2.2.2.2 cursor statements

/-! ## The frame of a step -/

/-- A construction behind a cursor keeps its frame, and the cursor it ends at is the same or new. -/
def Framed (cursor : NodeId) (step : Build NodeId) : Prop :=
  ∀ before after last, before.graph.Bounded → (∃ node, before.graph.get? cursor = some node) →
    Runs step before last after →
      Frame cursor before after ∧ (last = cursor ∨ before.graph.nextId ≤ last) ∧
        ∃ node, after.graph.get? last = some node

/-- A construction behind a node keeps the frame of that node. -/
def FramedBlocks (parent : NodeId) (step : Build Unit) : Prop :=
  ∀ before after, before.graph.Bounded → (∃ node, before.graph.get? parent = some node) →
    Runs step before () after → Frame parent before after

theorem Moving.framed {step : Build NodeId} (moving : Moving cursor calls step) : Framed cursor step :=
  fun before after last bounded stored runs => (moving before after last bounded stored runs).frame bounded stored

theorem MovingBlocks.framed {step : Build Unit} (moving : MovingBlocks cursor calls step) : FramedBlocks cursor step :=
  fun before after bounded stored runs => ((moving before after bounded stored runs).frame bounded stored).1

/-- Adding a statement, an `if`, later blocks, a block or a sequence keeps the frame. -/
theorem framed_add :
    (∀ cursor statement, Framed cursor (addStatement cursor statement)) ∧
      (∀ pos cursor blocks, Framed cursor (addChoice pos cursor blocks)) ∧
      (∀ pos decision blocks, FramedBlocks decision (addLaterBlocks pos decision blocks)) ∧
      (∀ pos parent block, FramedBlocks parent (addBlock pos parent block)) ∧
      (∀ cursor statements, Framed cursor (addSequence cursor statements)) := by
  obtain ⟨statement, choice, laterBlocks, block, sequence⟩ := moving_add
  refine ⟨?_, ?_, ?_, ?_, ?_⟩
  · exact fun cursor added => (statement cursor added).framed
  · exact fun pos cursor blocks => (choice pos cursor blocks).framed
  · exact fun pos decision blocks => (laterBlocks pos decision blocks).framed
  · exact fun pos parent added => (block pos parent added).framed
  · exact fun cursor statements => (sequence cursor statements).framed

theorem framed_addLaterBlocks (pos : Pos) (decision : NodeId) (blocks : List (Block Pos)) :
    FramedBlocks decision (addLaterBlocks pos decision blocks) :=
  framed_add.2.2.1 pos decision blocks

theorem framed_addBlock (pos : Pos) (parent : NodeId) (block : Block Pos) :
    FramedBlocks parent (addBlock pos parent block) :=
  framed_add.2.2.2.1 pos parent block

theorem framed_addSequence (cursor : NodeId) (statements : List (Statement Pos)) :
    Framed cursor (addSequence cursor statements) :=
  framed_add.2.2.2.2 cursor statements

end MissionGraph.Builder
