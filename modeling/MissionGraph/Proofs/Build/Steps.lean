import MissionGraph.Graph.Builder
import MissionGraph.Proofs.Graph.Lookup

/-!
# Steps of construction

For every step that builds a graph, when it succeeds and what it leaves behind.
-/

namespace MissionGraph

open Mission (Data Factions Field)
open Script (Block Cause Condition Pos Statement)

namespace Node

/-- A further child can be appended. -/
def Open (node : Node) : Prop :=
  ∀ nickname, node.content = .decision nickname → node.children.length < 2

/-- The node with a child appended. -/
def leadingTo (node : Node) (child : NodeId) : Node :=
  ⟨node.content, node.children ++ [child]⟩

/-- The node can take the field as it is. -/
def takes (node : Node) (field : Field) : Bool :=
  match node with
  | ⟨.data data, children⟩ => data.accepts (data.kind (!children.isEmpty)) field
  | _ => false

end Node

/-- The data marked as that of a mission that is missing. -/
def Mission.Data.missing (data : Data) : Data :=
  { data with implemented := false }

/-- The data of a node that only names the factions that offer a mission. -/
def Mission.Data.offeredBy (factions : Factions) : Data :=
  { Data.empty with offerGroup := some factions }

/-- The nickname of the decision that tests a condition. -/
def Script.Condition.nickname? : Condition → Option String
  | .named name => some name
  | .group _ => some branchNickname
  | .otherwise => none

namespace Graph

/-- Every stored number is below the next one. -/
def Bounded (graph : Graph) : Prop :=
  ∀ id node, graph.get? id = some node → id < graph.nextId

/-- The graph with a new node appended to the children of another one. -/
def grow (graph : Graph) (parent : NodeId) (content : Content) : Graph :=
  (graph.add content).2.link parent graph.nextId

variable {graph : Graph} {parent id : NodeId} {node : Node}

theorem Bounded.ne_nextId (bounded : graph.Bounded) (found : graph.get? id = some node) :
    id ≠ graph.nextId :=
  Nat.ne_of_lt (bounded id node found)

@[simp] theorem nextId_grow (graph : Graph) (parent : NodeId) (content : Content) :
    (graph.grow parent content).nextId = graph.nextId + 1 := by
  rw [grow, nextId_link]
  rfl

theorem get?_grow (different : parent ≠ graph.nextId) (content : Content) (key : NodeId) :
    (graph.grow parent content).get? key =
      if key = graph.nextId then some ⟨content, []⟩
      else if key = parent then (graph.get? key).map (·.leadingTo graph.nextId)
      else graph.get? key := by
  rw [grow, get?_link, get?_add]
  by_cases isNew : key = graph.nextId
  · subst isNew
    rw [if_neg different, if_pos rfl, if_pos rfl]
  · have notNew : graph.nextId ≠ key := fun same => isNew same.symm
    rw [if_neg notNew, if_neg isNew]
    by_cases isParent : key = parent
    · rw [if_pos isParent.symm, if_pos isParent]
      rfl
    · rw [if_neg (fun same => isParent same.symm), if_neg isParent]

theorem get?_grow_nextId (different : parent ≠ graph.nextId) (content : Content) :
    (graph.grow parent content).get? graph.nextId = some ⟨content, []⟩ := by
  rw [get?_grow different, if_pos rfl]

/-- A new node is stored, also where it is made behind itself. -/
theorem exists_get?_grow_nextId (graph : Graph) (parent : NodeId) (content : Content) :
    ∃ children, (graph.grow parent content).get? graph.nextId = some ⟨content, children⟩ := by
  rw [grow, get?_link, get?_add, if_pos rfl]
  split
  · exact ⟨_, rfl⟩
  · exact ⟨_, rfl⟩

theorem get?_grow_parent (bounded : graph.Bounded) (found : graph.get? parent = some node)
    (content : Content) :
    (graph.grow parent content).get? parent = some (node.leadingTo graph.nextId) := by
  have different := bounded.ne_nextId found
  rw [get?_grow different, if_neg different, if_pos rfl, found]
  rfl

theorem get?_grow_of_ne (different : parent ≠ graph.nextId) (content : Content) {key : NodeId}
    (old : key < graph.nextId) (other : key ≠ parent) :
    (graph.grow parent content).get? key = graph.get? key := by
  rw [get?_grow different, if_neg (Nat.ne_of_lt old), if_neg other]

theorem Bounded.grow (bounded : graph.Bounded) (found : graph.get? parent = some node)
    (content : Content) : (graph.grow parent content).Bounded := by
  intro key stored foundKey
  rw [nextId_grow]
  rw [get?_grow (bounded.ne_nextId found)] at foundKey
  split at foundKey
  · rename_i isNew
    exact isNew ▸ Nat.lt_succ_self _
  · split at foundKey
    · obtain ⟨before, foundBefore, _⟩ := Option.map_eq_some_iff.mp foundKey
      exact Nat.lt_succ_of_lt (bounded key before foundBefore)
    · exact Nat.lt_succ_of_lt (bounded key stored foundKey)

/-- A new data node with changed data is a new node with that data. -/
theorem modifyData_grow (different : parent ≠ graph.nextId) (data : Data) (change : Data → Data) :
    (graph.grow parent (.data data)).modifyData graph.nextId change =
      graph.grow parent (.data (change data)) := by
  apply ext_get?
  · intro key
    by_cases isNew : key = graph.nextId
    · subst isNew
      rw [get?_modifyData_self (get?_grow_nextId different _), get?_grow_nextId different]
    · rw [get?_modifyData_of_ne (fun same => isNew same.symm), get?_grow different, if_neg isNew,
        get?_grow different, if_neg isNew]
  · rw [nextId_modifyData, nextId_grow, nextId_grow]

end Graph

namespace Builder

variable {α β : Type} {before middle after : Builder} {pos : Pos} {parent child id : NodeId}

/-- The step succeeds on one builder with the value and leaves the other one. -/
def Runs (step : Build α) (before : Builder) (value : α) (after : Builder) : Prop :=
  step.run before = .ok value after

theorem runs_pure_iff {value result : α} :
    Runs (pure value) before result after ↔ result = value ∧ after = before := by
  constructor
  · intro runs
    cases runs
    exact ⟨rfl, rfl⟩
  · rintro ⟨rfl, rfl⟩
    rfl

theorem runs_bind_iff {first : Build α} {next : α → Build β} {result : β} :
    Runs (first >>= next) before result after ↔
      ∃ value middle, Runs first before value middle ∧ Runs (next value) middle result after := by
  have unfolded : (first >>= next).run before = EStateM.bind first next before := rfl
  unfold Runs
  rw [unfolded, EStateM.bind]
  constructor
  · intro runs
    split at runs
    · rename_i value middle found
      exact ⟨value, middle, found, runs⟩
    · cases runs
  · rintro ⟨value, middle, found, runs⟩
    rw [EStateM.run] at found
    rw [found]
    exact runs

/-- What follows a step only matters where the step leads. -/
theorem run_bind_congr {first : Build α} {next other : α → Build β}
    (same : ∀ value middle, Runs first before value middle → (next value).run middle = (other value).run middle) :
    (first >>= next).run before = (first >>= other).run before := by
  show EStateM.bind first next before = EStateM.bind first other before
  unfold EStateM.bind
  cases found : first before with
  | ok value middle => exact same value middle found
  | error _ _ => rfl

theorem run_bind_of_run {first other : Build α} {next : α → Build β} (same : first.run before = other.run before) :
    (first >>= next).run before = (other >>= next).run before := by
  show EStateM.bind first next before = EStateM.bind other next before
  unfold EStateM.bind
  rw [show first before = other before from same]

theorem runs_get_iff {result : Builder} :
    Runs get before result after ↔ result = before ∧ after = before := by
  constructor
  · intro runs
    cases runs
    exact ⟨rfl, rfl⟩
  · rintro ⟨rfl, rfl⟩
    rfl

theorem runs_modify_iff {change : Builder → Builder} {result : Unit} :
    Runs (modify change) before result after ↔ after = change before := by
  constructor
  · intro runs
    cases runs
    rfl
  · rintro rfl
    rfl

theorem not_runs_fail {cause : Cause} {result : α} : ¬ Runs (fail pos cause) before result after :=
  nofun

/-- The builder with its graph changed. -/
def onGraph (builder : Builder) (change : Graph → Graph) : Builder :=
  { builder with graph := change builder.graph }

@[simp] theorem graph_onGraph (builder : Builder) (change : Graph → Graph) :
    (builder.onGraph change).graph = change builder.graph := rfl

@[simp] theorem groups_onGraph (builder : Builder) (change : Graph → Graph) :
    (builder.onGraph change).groups = builder.groups := rfl

@[simp] theorem subs_onGraph (builder : Builder) (change : Graph → Graph) :
    (builder.onGraph change).subs = builder.subs := rfl

@[simp] theorem pending_onGraph (builder : Builder) (change : Graph → Graph) :
    (builder.onGraph change).pending = builder.pending := rfl

theorem runs_modifyGraph_iff {change : Graph → Graph} {result : Unit} :
    Runs (modifyGraph change) before result after ↔ after = before.onGraph change :=
  runs_modify_iff

theorem runs_addNode_iff {content : Content} :
    Runs (addNode content) before id after ↔
      id = before.graph.nextId ∧ after = before.onGraph fun graph => (graph.add content).2 := by
  constructor
  · intro runs
    cases runs
    exact ⟨rfl, rfl⟩
  · rintro ⟨rfl, rfl⟩
    rfl

theorem runs_checkOpen_iff {result : Unit} :
    Runs (checkOpen pos parent) before result after ↔
      (∃ node, before.graph.get? parent = some node ∧ node.Open) ∧ after = before := by
  rw [checkOpen, runs_bind_iff]
  constructor
  · rintro ⟨_, _, got, runs⟩
    obtain ⟨rfl, rfl⟩ := runs_get_iff.mp got
    split at runs
    · rename_i nickname children found
      split at runs
      · exact absurd runs not_runs_fail
      · rename_i few
        obtain ⟨_, rfl⟩ := runs_pure_iff.mp runs
        exact ⟨⟨_, found, fun _ _ => Nat.lt_of_not_le few⟩, rfl⟩
    · rename_i node other found
      obtain ⟨_, rfl⟩ := runs_pure_iff.mp runs
      refine ⟨⟨node, found, ?_⟩, rfl⟩
      intro nickname isDecision
      obtain ⟨content, children⟩ := node
      cases isDecision
      exact absurd rfl (other nickname children)
    · exact absurd runs not_runs_fail
  · rintro ⟨⟨node, found, isOpen⟩, rfl⟩
    refine ⟨_, _, runs_get_iff.mpr ⟨rfl, rfl⟩, ?_⟩
    rw [found]
    obtain ⟨content, children⟩ := node
    cases content with
    | decision nickname =>
        have few : ¬ 2 ≤ children.length := Nat.not_le.mpr (isOpen nickname rfl)
        simp only [if_neg few]
        exact runs_pure_iff.mpr ⟨rfl, rfl⟩
    | data _ => exact runs_pure_iff.mpr ⟨rfl, rfl⟩
    | documentation _ => exact runs_pure_iff.mpr ⟨rfl, rfl⟩
    | choice _ => exact runs_pure_iff.mpr ⟨rfl, rfl⟩

theorem runs_attach_iff {result : Unit} :
    Runs (attach pos parent child) before result after ↔
      (∃ node, before.graph.get? parent = some node ∧ node.Open) ∧
        after = before.onGraph (·.link parent child) := by
  rw [attach, runs_bind_iff]
  constructor
  · rintro ⟨_, _, opened, runs⟩
    obtain ⟨isOpen, rfl⟩ := runs_checkOpen_iff.mp opened
    exact ⟨isOpen, runs_modifyGraph_iff.mp runs⟩
  · rintro ⟨isOpen, rfl⟩
    exact ⟨(), _, runs_checkOpen_iff.mpr ⟨isOpen, rfl⟩, runs_modifyGraph_iff.mpr rfl⟩

theorem runs_newData_iff :
    Runs (newData pos parent) before id after ↔
      (∃ node, before.graph.get? parent = some node ∧ node.Open) ∧ id = before.graph.nextId ∧
        after = before.onGraph (·.grow parent (.data .empty)) := by
  rw [newData, runs_bind_iff]
  constructor
  · rintro ⟨_, _, opened, runs⟩
    obtain ⟨isOpen, rfl⟩ := runs_checkOpen_iff.mp opened
    obtain ⟨_, _, added, runs⟩ := runs_bind_iff.mp runs
    obtain ⟨rfl, rfl⟩ := runs_addNode_iff.mp added
    obtain ⟨_, _, attached, runs⟩ := runs_bind_iff.mp runs
    obtain ⟨_, rfl⟩ := runs_attach_iff.mp attached
    obtain ⟨rfl, rfl⟩ := runs_pure_iff.mp runs
    exact ⟨isOpen, rfl, rfl⟩
  · rintro ⟨⟨node, found, isOpen⟩, rfl, rfl⟩
    refine ⟨(), _, runs_checkOpen_iff.mpr ⟨⟨node, found, isOpen⟩, rfl⟩, runs_bind_iff.mpr ?_⟩
    refine ⟨_, _, runs_addNode_iff.mpr ⟨rfl, rfl⟩, runs_bind_iff.mpr ?_⟩
    refine ⟨(), _, runs_attach_iff.mpr ⟨?_, rfl⟩, runs_pure_iff.mpr ⟨rfl, rfl⟩⟩
    rw [graph_onGraph, Graph.get?_add]
    split
    · exact ⟨_, rfl, nofun⟩
    · exact ⟨node, found, isOpen⟩

theorem runs_findGroup_iff {name : String} {factions : Factions} :
    Runs (findGroup pos name) before factions after ↔
      before.groups.lookup name = some factions ∧ after = before := by
  rw [findGroup, runs_bind_iff]
  constructor
  · rintro ⟨_, _, got, runs⟩
    obtain ⟨rfl, rfl⟩ := runs_get_iff.mp got
    split at runs
    · rename_i found
      obtain ⟨rfl, rfl⟩ := runs_pure_iff.mp runs
      exact ⟨found, rfl⟩
    · exact absurd runs not_runs_fail
  · rintro ⟨found, rfl⟩
    refine ⟨_, _, runs_get_iff.mpr ⟨rfl, rfl⟩, ?_⟩
    rw [found]
    exact runs_pure_iff.mpr ⟨rfl, rfl⟩

theorem runs_findSub_iff {name : String} :
    Runs (findSub pos name) before id after ↔ before.subs.lookup name = some id ∧ after = before := by
  rw [findSub, runs_bind_iff]
  constructor
  · rintro ⟨_, _, got, runs⟩
    obtain ⟨rfl, rfl⟩ := runs_get_iff.mp got
    split at runs
    · rename_i found
      obtain ⟨rfl, rfl⟩ := runs_pure_iff.mp runs
      exact ⟨found, rfl⟩
    · exact absurd runs not_runs_fail
  · rintro ⟨found, rfl⟩
    refine ⟨_, _, runs_get_iff.mpr ⟨rfl, rfl⟩, ?_⟩
    rw [found]
    exact runs_pure_iff.mpr ⟨rfl, rfl⟩

/-- Changing the data of a node that was just made. -/
theorem onGraph_grow_modifyData {node : Node} (bounded : before.graph.Bounded)
    (found : before.graph.get? parent = some node) (data : Data) (change : Data → Data) :
    (before.onGraph (·.grow parent (.data data))).onGraph (·.modifyData before.graph.nextId change) =
      before.onGraph (·.grow parent (.data (change data))) := by
  rw [onGraph, onGraph, onGraph]
  simp only [Graph.modifyData_grow (bounded.ne_nextId found)]

/-- The factions of the group that a field names; none are needed for other fields. -/
def factionsFor? (groups : List (String × Factions)) (field : Field) : Option Factions :=
  match field.groupName? with
  | some name => groups.lookup name
  | none => some ⟨[]⟩

theorem takes_of_get? {graph : Graph} {node : Node} (found : graph.get? id = some node) (field : Field) :
    takes graph id field = node.takes field := by
  rw [takes, found]
  obtain ⟨content, children⟩ := node
  cases content <;> rfl

theorem exists_data_of_takes {graph : Graph} {field : Field} (taken : takes graph id field = true) :
    ∃ data children, graph.get? id = some ⟨.data data, children⟩ := by
  unfold takes at taken
  split at taken
  · rename_i data children found
    exact ⟨data, children, found⟩
  · cases taken

/-- Puts a field into a data node. -/
def fill (pos : Pos) (field : Field) (target : NodeId) : Build NodeId :=
  (match field.groupName? with
    | some name => findGroup pos name
    | none => pure ⟨[]⟩) >>= fun factions =>
  modifyGraph (·.modifyData target (·.put factions field)) >>= fun _ =>
  pure target

theorem run_putField {target : NodeId} {data : Data} {children : List NodeId}
    (found : before.graph.get? target = some ⟨.data data, children⟩) (factions : Factions) (field : Field) :
    (putField pos target factions field).run before =
      (modifyGraph (·.modifyData target (·.put factions field))).run before := by
  have read {next : Builder → Build Unit} : (get >>= next).run before = (next before).run before := rfl
  rw [putField, read, found]

/-- Puts a field into a node, which must hold data. -/
def fillData (pos : Pos) (field : Field) (target : NodeId) : Build NodeId :=
  (match field.groupName? with
    | some name => findGroup pos name
    | none => pure ⟨[]⟩) >>= fun factions =>
  putField pos target factions field >>= fun _ =>
  pure target

theorem run_fillData {target : NodeId} {data : Data} {children : List NodeId}
    (found : before.graph.get? target = some ⟨.data data, children⟩) (field : Field) :
    (fillData pos field target).run before = (fill pos field target).run before := by
  refine run_bind_congr fun factions middle resolved => ?_
  have unchanged : middle = before := by
    split at resolved
    · exact (runs_findGroup_iff.mp resolved).2
    · exact (runs_pure_iff.mp resolved).2
  subst unchanged
  exact run_bind_of_run (run_putField found factions field)

/-- A field never meets a node without data: the cursor's node takes it only if it has data, and a new node is
made for data. -/
theorem addField_eq (pos : Pos) (cursor : NodeId) (field : Field) :
    addField pos cursor field =
      get >>= fun builder =>
        if takes builder.graph cursor field then fill pos field cursor
        else newData pos cursor >>= fill pos field := by
  have opened : addField pos cursor field = get >>= fun builder =>
      if takes builder.graph cursor field then fillData pos field cursor
      else newData pos cursor >>= fillData pos field := by
    unfold addField fillData
    cases field.groupName? with
    | none => simp only [pure_bind]
    | some name => simp only [pure_bind]
  rw [opened]
  funext before
  apply run_bind_congr
  intro _ _ got
  obtain ⟨rfl, rfl⟩ := runs_get_iff.mp got
  split
  · rename_i taken
    obtain ⟨data, children, found⟩ := exists_data_of_takes taken
    exact run_fillData found field
  · refine run_bind_congr fun target middle made => ?_
    obtain ⟨_, rfl, rfl⟩ := runs_newData_iff.mp made
    obtain ⟨children, found⟩ := Graph.exists_get?_grow_nextId _ cursor (.data .empty)
    exact run_fillData found field

theorem runs_fill_iff {field : Field} {target last : NodeId} :
    Runs (fill pos field target) before last after ↔
      ∃ factions, factionsFor? before.groups field = some factions ∧ last = target ∧
        after = before.onGraph (·.modifyData target (·.put factions field)) := by
  have resolve {factions : Factions} {middle : Builder} :
      Runs (match field.groupName? with
        | some name => findGroup pos name
        | none => pure ⟨[]⟩) before factions middle ↔
        factionsFor? before.groups field = some factions ∧ middle = before := by
    unfold factionsFor?
    split
    · exact runs_findGroup_iff
    · rw [runs_pure_iff, Option.some.injEq, eq_comm]
  rw [fill, runs_bind_iff]
  constructor
  · rintro ⟨factions, _, resolved, runs⟩
    obtain ⟨known, rfl⟩ := resolve.mp resolved
    obtain ⟨_, _, put, runs⟩ := runs_bind_iff.mp runs
    cases runs_modifyGraph_iff.mp put
    obtain ⟨rfl, rfl⟩ := runs_pure_iff.mp runs
    exact ⟨factions, known, rfl, rfl⟩
  · rintro ⟨factions, known, rfl, rfl⟩
    refine ⟨factions, _, resolve.mpr ⟨known, rfl⟩, runs_bind_iff.mpr ?_⟩
    exact ⟨(), _, runs_modifyGraph_iff.mpr rfl, runs_pure_iff.mpr ⟨rfl, rfl⟩⟩

theorem runs_addField_iff {cursor last : NodeId} {field : Field} {node : Node}
    (bounded : before.graph.Bounded) (found : before.graph.get? cursor = some node) :
    Runs (addField pos cursor field) before last after ↔
      ∃ factions, factionsFor? before.groups field = some factions ∧
        ((node.takes field = true ∧ last = cursor ∧
            after = before.onGraph (·.modifyData cursor (·.put factions field))) ∨
          (node.takes field = false ∧ node.Open ∧ last = before.graph.nextId ∧
            after = before.onGraph (·.grow cursor (.data (Data.empty.put factions field))))) := by
  have grown (factions : Factions) :=
    onGraph_grow_modifyData bounded found Data.empty (·.put factions field)
  rw [addField_eq, runs_bind_iff]
  constructor
  · rintro ⟨_, _, got, runs⟩
    obtain ⟨rfl, rfl⟩ := runs_get_iff.mp got
    rw [takes_of_get? found] at runs
    split at runs
    · rename_i taken
      obtain ⟨factions, known, rfl, rfl⟩ := runs_fill_iff.mp runs
      exact ⟨factions, known, .inl ⟨taken, rfl, rfl⟩⟩
    · rename_i refused
      obtain ⟨_, _, made, runs⟩ := runs_bind_iff.mp runs
      obtain ⟨⟨_, foundAgain, isOpen⟩, rfl, rfl⟩ := runs_newData_iff.mp made
      obtain ⟨factions, known, rfl, rfl⟩ := runs_fill_iff.mp runs
      rw [found] at foundAgain
      cases foundAgain
      exact ⟨factions, known, .inr ⟨by simpa using refused, isOpen, rfl, grown factions⟩⟩
  · rintro ⟨factions, known, cases⟩
    refine ⟨_, _, runs_get_iff.mpr ⟨rfl, rfl⟩, ?_⟩
    rw [takes_of_get? found]
    rcases cases with ⟨taken, rfl, rfl⟩ | ⟨refused, isOpen, rfl, rfl⟩
    · rw [if_pos taken]
      exact runs_fill_iff.mpr ⟨factions, known, rfl, rfl⟩
    · rw [if_neg (by simp [refused])]
      refine runs_bind_iff.mpr ⟨_, _, runs_newData_iff.mpr ⟨⟨node, found, isOpen⟩, rfl, rfl⟩, ?_⟩
      exact runs_fill_iff.mpr ⟨factions, known, rfl, (grown factions).symm⟩

theorem addUnimplemented_eq (pos : Pos) (cursor : NodeId) :
    addUnimplemented pos cursor =
      get >>= fun builder =>
        (match builder.graph.get? cursor with
          | some ⟨.data _, _⟩ => pure cursor
          | _ => newData pos cursor) >>= fun target =>
        modifyGraph (·.modifyData target Data.missing) >>= fun _ =>
        pure target := by
  unfold addUnimplemented
  congr 1
  funext builder
  cases builder.graph.get? cursor with
  | none => rfl
  | some node =>
      obtain ⟨content, children⟩ := node
      cases content <;> rfl

theorem runs_addUnimplemented_data_iff {cursor last : NodeId} {data : Data} {children : List NodeId}
    (found : before.graph.get? cursor = some ⟨.data data, children⟩) :
    Runs (addUnimplemented pos cursor) before last after ↔
      last = cursor ∧ after = before.onGraph (·.modifyData cursor Data.missing) := by
  rw [addUnimplemented_eq, runs_bind_iff]
  constructor
  · rintro ⟨_, _, got, runs⟩
    obtain ⟨rfl, rfl⟩ := runs_get_iff.mp got
    simp only [found, pure_bind] at runs
    obtain ⟨_, _, marked, runs⟩ := runs_bind_iff.mp runs
    cases runs_modifyGraph_iff.mp marked
    exact runs_pure_iff.mp runs
  · rintro ⟨rfl, rfl⟩
    refine ⟨_, _, runs_get_iff.mpr ⟨rfl, rfl⟩, ?_⟩
    simp only [found, pure_bind]
    refine runs_bind_iff.mpr ?_
    exact ⟨(), _, runs_modifyGraph_iff.mpr rfl, runs_pure_iff.mpr ⟨rfl, rfl⟩⟩

theorem runs_addUnimplemented_other_iff {cursor last : NodeId} {node : Node}
    (bounded : before.graph.Bounded) (found : before.graph.get? cursor = some node)
    (other : node.data? = none) :
    Runs (addUnimplemented pos cursor) before last after ↔
      node.Open ∧ last = before.graph.nextId ∧
        after = before.onGraph (·.grow cursor (.data Data.empty.missing)) := by
  have grown := onGraph_grow_modifyData bounded found Data.empty Data.missing
  have chosen : (match before.graph.get? cursor with
      | some ⟨.data _, _⟩ => pure cursor
      | _ => newData pos cursor) = newData pos cursor := by
    rw [found]
    obtain ⟨content, children⟩ := node
    cases content with
    | data _ => cases other
    | decision _ => rfl
    | documentation _ => rfl
    | choice _ => rfl
  rw [addUnimplemented_eq, runs_bind_iff]
  constructor
  · rintro ⟨_, _, got, runs⟩
    obtain ⟨rfl, rfl⟩ := runs_get_iff.mp got
    rw [chosen] at runs
    obtain ⟨_, _, made, runs⟩ := runs_bind_iff.mp runs
    obtain ⟨⟨_, foundAgain, isOpen⟩, rfl, rfl⟩ := runs_newData_iff.mp made
    obtain ⟨_, _, marked, runs⟩ := runs_bind_iff.mp runs
    cases runs_modifyGraph_iff.mp marked
    obtain ⟨rfl, rfl⟩ := runs_pure_iff.mp runs
    rw [found] at foundAgain
    cases foundAgain
    exact ⟨isOpen, rfl, grown⟩
  · rintro ⟨isOpen, rfl, rfl⟩
    refine ⟨_, _, runs_get_iff.mpr ⟨rfl, rfl⟩, ?_⟩
    rw [chosen]
    refine runs_bind_iff.mpr ⟨_, _, runs_newData_iff.mpr ⟨⟨node, found, isOpen⟩, rfl, rfl⟩, ?_⟩
    refine runs_bind_iff.mpr ⟨(), _, runs_modifyGraph_iff.mpr rfl, ?_⟩
    exact runs_pure_iff.mpr ⟨rfl, grown.symm⟩

/-- Making a node and appending it to the children of another one. -/
theorem runs_addNode_attach_iff {content : Content} {next : NodeId → Build α} {value : α} {node : Node}
    (bounded : before.graph.Bounded) (found : before.graph.get? parent = some node) :
    Runs (addNode content >>= fun id => attach pos parent id >>= fun _ => next id) before value after ↔
      node.Open ∧ Runs (next before.graph.nextId) (before.onGraph (·.grow parent content)) value after := by
  have foundStill : (before.graph.add content).2.get? parent = some node := by
    rw [Graph.get?_add, if_neg (fun same => bounded.ne_nextId found same.symm), found]
  rw [runs_bind_iff]
  constructor
  · rintro ⟨_, _, added, runs⟩
    obtain ⟨rfl, rfl⟩ := runs_addNode_iff.mp added
    obtain ⟨_, _, attached, runs⟩ := runs_bind_iff.mp runs
    obtain ⟨⟨_, foundAgain, isOpen⟩, rfl⟩ := runs_attach_iff.mp attached
    rw [graph_onGraph, foundStill] at foundAgain
    cases foundAgain
    exact ⟨isOpen, runs⟩
  · rintro ⟨isOpen, runs⟩
    refine ⟨_, _, runs_addNode_iff.mpr ⟨rfl, rfl⟩, runs_bind_iff.mpr ?_⟩
    exact ⟨(), _, runs_attach_iff.mpr ⟨⟨node, foundStill, isOpen⟩, rfl⟩, runs⟩

theorem addDecision_eq {condition : Condition} {nickname : String}
    (named : condition.nickname? = some nickname) (pos : Pos) :
    addDecision pos condition = addNode (.decision nickname) := by
  cases condition <;> cases named <;> rfl

theorem not_runs_addDecision {condition : Condition} (unnamed : condition.nickname? = none) :
    ¬ Runs (addDecision pos condition) before id after := by
  cases condition with
  | named _ => cases unnamed
  | group _ => cases unnamed
  | otherwise => exact not_runs_fail

theorem addChoice_cons (pos : Pos) (cursor : NodeId) (block : Block Pos) (rest : List (Block Pos)) :
    addChoice pos cursor (block :: rest) =
      addDecision pos block.condition >>= fun id => attach pos cursor id >>= fun _ =>
        (addBlock pos id block >>= fun _ => addLaterBlocks pos id rest) >>= fun _ => pure id := by
  simp only [bind_assoc]
  rw [addChoice]

/-- Two or more later blocks are an `if` of their own behind the decision. -/
theorem addLaterBlocks_cons_cons (pos : Pos) (decision : NodeId) (block next : Block Pos)
    (rest : List (Block Pos)) :
    addLaterBlocks pos decision (block :: next :: rest) =
      addChoice pos decision (block :: next :: rest) >>= fun _ => pure () := by
  rw [addChoice_cons, addLaterBlocks]
  simp only [bind_assoc, pure_bind, bind_pure_unit]

/-! ## The recursion of construction -/

theorem ne_group_of_isGroup {condition : Condition} (notGroup : condition.isGroup = false) (name : String) :
    condition ≠ .group name := by
  rintro rfl
  cases notGroup

/-- A block that is nothing but an `if`, and that tests no group. -/
theorem addBlock_innerChoice {condition : Condition} (notGroup : condition.isGroup = false) (pos inner : Pos)
    (parent : NodeId) (blocks : List (Block Pos)) :
    addBlock pos parent (.mk condition [.choice inner blocks]) =
      addChoice inner parent blocks >>= fun _ => pure () := by
  rw [addBlock]
  exact ne_group_of_isGroup notGroup

/-- A block that goes on after an `if`, and that tests no group. -/
theorem addBlock_pastChoice {condition : Condition} (notGroup : condition.isGroup = false) (pos note : Pos)
    (parent : NodeId) (blocks : List (Block Pos)) (extra : Statement Pos) (tail : List (Statement Pos)) :
    addBlock pos parent (.mk condition (.choice note blocks :: extra :: tail)) = fail extra.note .continuesPastIf := by
  rw [addBlock]
  exact ne_group_of_isGroup notGroup

/-- The empty data node of a block that tests no group, and the statements behind it. -/
theorem addBlock_plain {condition : Condition} {body : List (Statement Pos)} (notGroup : condition.isGroup = false)
    (notChoice : ∀ note blocks, body.head? ≠ some (.choice note blocks)) (pos : Pos) (parent : NodeId) :
    addBlock pos parent (.mk condition body) =
      newData pos parent >>= fun id => addSequence id body >>= fun _ => pure () := by
  rw [addBlock]
  · exact ne_group_of_isGroup notGroup
  · rintro inner blocks rfl
    exact notChoice inner blocks rfl
  · rintro note blocks extra tail rfl
    exact notChoice note blocks rfl

/-- The induction along construction, for statements, `if`s, the blocks after the first one, single blocks and lists
of statements. Two or more later blocks are an `if` of their own. -/
theorem construction_induction {ofStatement : NodeId → Statement Pos → Prop}
    {ofChoice ofLaterBlocks : Pos → NodeId → List (Block Pos) → Prop} {ofBlock : Pos → NodeId → Block Pos → Prop}
    {ofSequence : NodeId → List (Statement Pos) → Prop}
    (sub : ∀ cursor pos name body, ofStatement cursor (.sub pos name body))
    (group : ∀ cursor pos group, ofStatement cursor (.group pos group))
    (choice : ∀ cursor pos blocks, ofChoice pos cursor blocks → ofStatement cursor (.choice pos blocks))
    (call : ∀ cursor pos name, ofStatement cursor (.call pos name))
    (unimplemented : ∀ cursor pos, ofStatement cursor (.unimplemented pos))
    (doc : ∀ cursor pos name, ofStatement cursor (.doc pos name))
    (field : ∀ cursor pos field, ofStatement cursor (.field pos field))
    (groupBlock : ∀ pos parent name body, (∀ id, ofSequence id body) → ofBlock pos parent (.mk (.group name) body))
    (innerChoice : ∀ pos parent condition inner blocks, condition.isGroup = false → ofChoice inner parent blocks →
      ofBlock pos parent (.mk condition [.choice inner blocks]))
    (pastChoice : ∀ pos parent condition note blocks extra tail, condition.isGroup = false →
      ofBlock pos parent (.mk condition (.choice note blocks :: extra :: tail)))
    (plainBlock : ∀ pos parent condition body, condition.isGroup = false →
      (∀ note blocks, body.head? ≠ some (.choice note blocks)) → (∀ id, ofSequence id body) →
      ofBlock pos parent (.mk condition body))
    (noStatement : ∀ cursor, ofSequence cursor [])
    (statements : ∀ cursor statement rest, ofStatement cursor statement → (∀ next, ofSequence next rest) →
      ofSequence cursor (statement :: rest))
    (noBlock : ∀ pos cursor, ofChoice pos cursor [])
    (blocks : ∀ pos cursor block rest, (∀ id, ofBlock pos id block) → (∀ id, ofLaterBlocks pos id rest) →
      ofChoice pos cursor (block :: rest))
    (noLaterBlock : ∀ pos decision, ofLaterBlocks pos decision [])
    (lastBlock : ∀ pos decision block, ofBlock pos decision block → ofLaterBlocks pos decision [block])
    (laterBlocks : ∀ pos decision block next rest, ofChoice pos decision (block :: next :: rest) →
      ofLaterBlocks pos decision (block :: next :: rest)) :
    (∀ cursor statement, ofStatement cursor statement) ∧ (∀ pos cursor blocks, ofChoice pos cursor blocks) ∧
      (∀ pos decision blocks, ofLaterBlocks pos decision blocks) ∧ (∀ pos parent block, ofBlock pos parent block) ∧
      ∀ cursor statements, ofSequence cursor statements := by
  have isGroup {condition : Condition} (notGroup : ∀ name, condition = .group name → False) :
      condition.isGroup = false := by
    cases condition with
    | named _ => rfl
    | group name => exact absurd rfl (notGroup name)
    | otherwise => rfl
  refine addStatement.mutual_induct _ _ _ _ _ sub group choice call unimplemented doc field groupBlock ?_ ?_ ?_
    noStatement statements noBlock blocks noLaterBlock lastBlock ?_
  · exact fun pos parent condition inner blocks notGroup => innerChoice pos parent condition inner blocks (isGroup notGroup)
  · exact fun pos parent condition note blocks extra tail notGroup =>
      pastChoice pos parent condition note blocks extra tail (isGroup notGroup)
  · intro pos parent condition body notGroup notInner notPast
    refine plainBlock pos parent condition body (isGroup notGroup) fun note blocks isChoice => ?_
    obtain ⟨rest, rfl⟩ := List.head?_eq_some_iff.mp isChoice
    cases rest with
    | nil => exact notInner note blocks rfl
    | cons extra tail => exact notPast note blocks extra tail rfl
  · exact fun pos decision block next rest ofBlock ofRest =>
      laterBlocks pos decision block next rest (blocks pos decision block (next :: rest) ofBlock ofRest)

end Builder

end MissionGraph
