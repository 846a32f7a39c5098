import MissionGraph.Proofs.Build.Steps
import MissionGraph.Proofs.Script.Carrying

/-!
# Construction at other places

The places of statements do not matter for what is built from them. With other places the same graph is built, or
construction fails with the same message at the other place.
-/

namespace MissionGraph

open Mission (Data Factions Field)
open Script (Block Cause Condition Fault Group Pos Program Statement carry mapNotesBlocks mapNotesBody)

namespace Builder

variable {α β γ δ : Type}

/-- The builder with other places in the bodies that are pending. -/
def mapPos (f : Pos → Pos) (builder : Builder) : Builder :=
  { builder with pending := builder.pending.map (Prod.map id (mapNotesBody f)) }

@[simp] theorem graph_mapPos (f : Pos → Pos) (builder : Builder) : (builder.mapPos f).graph = builder.graph := rfl

@[simp] theorem groups_mapPos (f : Pos → Pos) (builder : Builder) : (builder.mapPos f).groups = builder.groups := rfl

@[simp] theorem subs_mapPos (f : Pos → Pos) (builder : Builder) : (builder.mapPos f).subs = builder.subs := rfl

/-- The outcome of a step with other places. -/
def carryOutcome (f : Pos → Pos) (change : α → β) :
    EStateM.Result Fault Builder α → EStateM.Result Fault Builder β
  | .ok value after => .ok (change value) (after.mapPos f)
  | .error fault after => .error (fault.mapPos f) (after.mapPos f)

/-- On a builder with other places the second step does what the first one does, with other places. -/
def Carries (f : Pos → Pos) (change : α → β) (first : Build α) (second : Build β) : Prop :=
  ∀ before : Builder, second.run (before.mapPos f) = carryOutcome f change (first.run before)

variable {f : Pos → Pos} {change : α → β} {change' : γ → δ} {first : Build α} {second : Build β}

theorem carries_pure (value : α) : Carries f change (pure value) (pure (change value)) :=
  fun _ => rfl

theorem Carries.bind {next : α → Build γ} {next' : β → Build δ} (carries : Carries f change first second)
    (later : ∀ value, Carries f change' (next value) (next' (change value))) :
    Carries f change' (first >>= next) (second >>= next') := by
  intro before
  show EStateM.bind second next' (before.mapPos f) = carryOutcome f change' (EStateM.bind first next before)
  have met := carries before
  unfold EStateM.run at met
  rw [EStateM.bind, EStateM.bind, met]
  cases first before with
  | ok value middle => exact later value middle
  | error fault middle => rfl

theorem carries_get_bind {next : Builder → Build α} {next' : Builder → Build β}
    (later : ∀ builder, Carries f change (next builder) (next' (builder.mapPos f))) :
    Carries f change (get >>= next) (get >>= next') :=
  fun before => later before before

theorem Carries.ite {test : Prop} [Decidable test] {yes no : Build α} {yes' no' : Build β}
    (whenTrue : test → Carries f change yes yes') (whenFalse : ¬ test → Carries f change no no') :
    Carries f change (if test then yes else no) (if test then yes' else no') := by
  split
  · exact whenTrue ‹_›
  · exact whenFalse ‹_›

theorem carries_fail {cause : Cause} (same : cause.mapPos f = cause) (pos : Pos) :
    Carries f change (fail pos cause) (fail (f pos) cause) := by
  intro before
  have failed : carryOutcome f change ((fail pos cause : Build α).run before) =
      .error ⟨f pos, cause.mapPos f⟩ (before.mapPos f) := rfl
  rw [failed, same]
  rfl

theorem carries_modify {update update' : Builder → Builder}
    (same : ∀ builder, update' (builder.mapPos f) = (update builder).mapPos f) :
    Carries f id (modify update) (modify update') :=
  fun before => congrArg (EStateM.Result.ok ()) (same before)

theorem carries_modifyGraph (change : Graph → Graph) : Carries f id (modifyGraph change) (modifyGraph change) :=
  fun _ => rfl

theorem carries_addNode (content : Content) : Carries f id (addNode content) (addNode content) :=
  fun _ => rfl

theorem carries_checkOpen (pos : Pos) (parent : NodeId) :
    Carries f id (checkOpen pos parent) (checkOpen (f pos) parent) := by
  refine carries_get_bind fun builder => ?_
  rw [graph_mapPos]
  cases builder.graph.get? parent with
  | none =>
      apply carries_fail
      rfl
  | some node =>
      obtain ⟨content, children⟩ := node
      cases content with
      | decision nickname =>
          refine Carries.ite (fun _ => ?_) fun _ => carries_pure ()
          apply carries_fail
          rfl
      | _ => exact carries_pure ()

theorem carries_attach (pos : Pos) (parent child : NodeId) :
    Carries f id (attach pos parent child) (attach (f pos) parent child) :=
  (carries_checkOpen pos parent).bind fun _ => carries_modifyGraph _

theorem carries_newData (pos : Pos) (parent : NodeId) :
    Carries f id (newData pos parent) (newData (f pos) parent) :=
  (carries_checkOpen pos parent).bind fun _ => (carries_addNode _).bind fun id =>
    (carries_attach pos parent id).bind fun _ => carries_pure id

theorem carries_findGroup (pos : Pos) (name : String) :
    Carries f id (findGroup pos name) (findGroup (f pos) name) := by
  refine carries_get_bind fun builder => ?_
  rw [groups_mapPos]
  cases builder.groups.lookup name with
  | none =>
      apply carries_fail
      rfl
  | some factions => exact carries_pure factions

theorem carries_findSub (pos : Pos) (name : String) :
    Carries f id (findSub pos name) (findSub (f pos) name) := by
  refine carries_get_bind fun builder => ?_
  rw [subs_mapPos]
  cases builder.subs.lookup name with
  | none =>
      apply carries_fail
      rfl
  | some id => exact carries_pure id

theorem carries_fill (pos : Pos) (field : Field) (target : NodeId) :
    Carries f id (fill pos field target) (fill (f pos) field target) := by
  unfold fill
  cases field.groupName? with
  | none =>
      have noGroup : Carries f id (pure (⟨[]⟩ : Factions)) (pure ⟨[]⟩) := carries_pure _
      exact noGroup.bind fun _ => (carries_modifyGraph _).bind fun _ => carries_pure target
  | some name =>
      exact (carries_findGroup pos name).bind fun _ => (carries_modifyGraph _).bind fun _ => carries_pure target

theorem carries_addField (pos : Pos) (cursor : NodeId) (field : Field) :
    Carries f id (addField pos cursor field) (addField (f pos) cursor field) := by
  rw [addField_eq, addField_eq]
  refine carries_get_bind fun builder => Carries.ite (fun _ => carries_fill pos field cursor) fun _ => ?_
  exact (carries_newData pos cursor).bind (carries_fill pos field)

theorem carries_addUnimplemented (pos : Pos) (cursor : NodeId) :
    Carries f id (addUnimplemented pos cursor) (addUnimplemented (f pos) cursor) := by
  rw [addUnimplemented_eq, addUnimplemented_eq]
  refine carries_get_bind fun builder => ?_
  rw [graph_mapPos]
  have mark (target : NodeId) : Carries f id
      (modifyGraph (·.modifyData target Data.missing) >>= fun _ => pure target)
      (modifyGraph (·.modifyData target Data.missing) >>= fun _ => pure target) :=
    (carries_modifyGraph _).bind fun _ => carries_pure target
  cases builder.graph.get? cursor with
  | none => exact (carries_newData pos cursor).bind mark
  | some node =>
      obtain ⟨content, children⟩ := node
      cases content with
      | data data => exact mark cursor
      | _ => exact (carries_newData pos cursor).bind mark

theorem carries_addDecision (pos : Pos) (condition : Condition) :
    Carries f id (addDecision pos condition) (addDecision (f pos) condition) := by
  cases condition with
  | otherwise =>
      apply carries_fail
      rfl
  | _ => exact carries_addNode _

/-- Statements with other places begin with an `if` only where the statements do. -/
theorem head?_mapNotesBody {body : List (Statement Pos)}
    (notChoice : ∀ note blocks, body.head? ≠ some (.choice note blocks)) (note : Pos) (blocks : List (Block Pos)) :
    (mapNotesBody f body).head? ≠ some (.choice note blocks) := by
  intro isChoice
  cases body with
  | nil => cases isChoice
  | cons statement tail =>
      cases statement with
      | choice inner within => exact notChoice inner within rfl
      | _ => cases isChoice

theorem note_mapNotes (statement : Statement Pos) : (statement.mapNotes f).note = f statement.note := by
  cases statement <;> rfl

/-- Construction carries places along. -/
theorem carries_add (f : Pos → Pos) :
    (∀ cursor statement, Carries f id (addStatement cursor statement) (addStatement cursor (statement.mapNotes f))) ∧
      (∀ pos cursor blocks,
        Carries f id (addChoice pos cursor blocks) (addChoice (f pos) cursor (mapNotesBlocks f blocks))) ∧
      (∀ pos decision blocks,
        Carries f id (addLaterBlocks pos decision blocks) (addLaterBlocks (f pos) decision (mapNotesBlocks f blocks))) ∧
      (∀ pos parent block, Carries f id (addBlock pos parent block)
        (addBlock (f pos) parent (.mk block.condition (mapNotesBody f block.body)))) ∧
      (∀ cursor body, Carries f id (addSequence cursor body) (addSequence cursor (mapNotesBody f body))) := by
  apply construction_induction
  case sub | group =>
    intros
    rw [Statement.mapNotes, addStatement, addStatement]
    apply carries_fail
    rfl
  case choice =>
    intro cursor pos blocks ih
    rw [Statement.mapNotes, addStatement, addStatement]
    exact ih
  case call =>
    intro cursor pos name
    rw [Statement.mapNotes, addStatement, addStatement]
    exact (carries_findSub pos name).bind fun target => (carries_attach pos cursor target).bind fun _ =>
      carries_pure cursor
  case unimplemented =>
    intro cursor pos
    rw [Statement.mapNotes, addStatement, addStatement]
    exact carries_addUnimplemented pos cursor
  case doc =>
    intro cursor pos name
    rw [Statement.mapNotes, addStatement, addStatement]
    exact (carries_addNode _).bind fun id => (carries_attach pos cursor id).bind fun _ => carries_pure id
  case field =>
    intro cursor pos field
    rw [Statement.mapNotes, addStatement, addStatement]
    exact carries_addField pos cursor field
  case groupBlock =>
    intro pos parent name body ih
    rw [addBlock, Block.condition, Block.body, addBlock]
    exact (carries_findGroup pos name).bind fun factions => (carries_newData pos parent).bind fun id =>
      (carries_modifyGraph _).bind fun _ => (ih id).bind fun _ => carries_pure ()
  case innerChoice =>
    intro pos parent condition inner blocks notGroup ih
    rw [Block.condition, Block.body, mapNotesBody, mapNotesBody, Statement.mapNotes, addBlock_innerChoice notGroup,
      addBlock_innerChoice notGroup]
    exact ih.bind fun _ => carries_pure ()
  case pastChoice =>
    intro pos parent condition note blocks extra tail notGroup
    rw [Block.condition, Block.body, mapNotesBody, mapNotesBody, Statement.mapNotes, addBlock_pastChoice notGroup,
      addBlock_pastChoice notGroup, note_mapNotes]
    apply carries_fail
    rfl
  case plainBlock =>
    intro pos parent condition body notGroup notChoice ih
    rw [Block.condition, Block.body, addBlock_plain notGroup notChoice,
      addBlock_plain notGroup (head?_mapNotesBody notChoice)]
    exact (carries_newData pos parent).bind fun id => (ih id).bind fun _ => carries_pure ()
  case noStatement =>
    intro cursor
    rw [mapNotesBody, addSequence]
    exact carries_pure cursor
  case statements =>
    intro cursor statement rest ofStatement ofRest
    rw [mapNotesBody, addSequence, addSequence]
    exact ofStatement.bind ofRest
  case noBlock =>
    intro pos cursor
    rw [mapNotesBlocks, addChoice, addChoice]
    apply carries_fail
    rfl
  case blocks =>
    intro pos cursor block rest ofBlock ofRest
    obtain ⟨condition, body⟩ := block
    rw [mapNotesBlocks, addChoice, addChoice]
    exact (carries_addDecision pos condition).bind fun first => (carries_attach pos cursor first).bind fun _ =>
      (ofBlock first).bind fun _ => (ofRest first).bind fun _ => carries_pure first
  case noLaterBlock =>
    intro pos decision
    rw [mapNotesBlocks, addLaterBlocks, addLaterBlocks]
    exact carries_pure ()
  case lastBlock =>
    intro pos decision block ih
    obtain ⟨condition, body⟩ := block
    rw [mapNotesBlocks, mapNotesBlocks, addLaterBlocks, addLaterBlocks]
    exact ih
  case laterBlocks =>
    intro pos decision block next rest ih
    obtain ⟨condition, body⟩ := block
    obtain ⟨other, following⟩ := next
    rw [mapNotesBlocks, mapNotesBlocks] at ih ⊢
    rw [addLaterBlocks_cons_cons, addLaterBlocks_cons_cons]
    exact ih.bind fun _ => carries_pure ()

/-! ## Scripts -/

theorem carries_declareGroup (pos : Pos) (group : Group) :
    Carries f id (declareGroup pos group) (declareGroup (f pos) group) := by
  refine carries_get_bind fun builder => ?_
  rw [groups_mapPos]
  refine Carries.ite (fun _ => Carries.bind (carries_fail ?_ pos : Carries f id _ _) fun _ => ?_) fun _ => ?_
  · rfl
  all_goals exact carries_modify fun _ => rfl

theorem carries_declareSub (pos : Pos) (name : String) (body : List (Statement Pos)) :
    Carries f id (declareSub pos name body) (declareSub (f pos) name (mapNotesBody f body)) := by
  refine carries_get_bind fun builder => ?_
  rw [subs_mapPos]
  refine Carries.ite (fun _ => Carries.bind (carries_fail ?_ pos : Carries f id _ _) fun _ => ?_) fun _ => ?_
  · rfl
  all_goals exact (carries_addNode _).bind fun id => carries_modify fun _ => by simp [mapPos]

theorem carries_declare (script : Program) :
    Carries f (mapNotesBody f) (declare script) (declare (mapNotesBody f script)) := by
  induction script with
  | nil => exact carries_pure []
  | cons statement rest ih =>
      cases statement with
      | group pos group => exact (carries_declareGroup pos group).bind fun _ => ih
      | sub pos name body => exact (carries_declareSub pos name body).bind fun _ => ih
      | _ => exact ih.bind fun others => carries_pure (_ :: others)

theorem carries_addBodies (bodies : List (NodeId × List (Statement Pos))) :
    Carries f id (addBodies bodies) (addBodies (bodies.map (Prod.map id (mapNotesBody f)))) := by
  induction bodies with
  | nil => exact carries_pure ()
  | cons first rest ih =>
      obtain ⟨id, body⟩ := first
      exact ((carries_add f).2.2.2.2 id body).bind fun _ => ih

theorem carries_addScript (statements : List (Statement Pos)) :
    Carries f id (addScript statements) (addScript (mapNotesBody f statements)) := by
  refine ((carries_add f).2.2.2.2 Graph.entry statements).bind fun _ => carries_get_bind fun builder => ?_
  have cleared : Carries f id (modify fun builder => { builder with pending := [] })
      (modify fun builder => { builder with pending := [] }) := carries_modify fun _ => rfl
  exact cleared.bind fun _ => carries_addBodies builder.pending

theorem carries_buildScript (script : Program) :
    Carries f id (buildScript script) (buildScript (mapNotesBody f script)) :=
  (carries_declare script).bind carries_addScript

theorem rawGraph_mapNotes (script : Program) : rawGraph (mapNotesBody f script) = carry f id (rawGraph script) := by
  have outcome := carries_buildScript (f := f) script start
  unfold rawGraph
  rw [show start.mapPos f = start from rfl] at outcome
  rw [outcome]
  cases (buildScript script).run start <;> rfl

end Builder

theorem Graph.ofScript_mapNotes (f : Pos → Pos) (script : Program) :
    Graph.ofScript (mapNotesBody f script) = carry f id (Graph.ofScript script) := by
  unfold Graph.ofScript
  rw [Builder.rawGraph_mapNotes]
  cases Builder.rawGraph script <;> rfl

end MissionGraph
