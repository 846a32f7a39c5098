import Mathlib.Logic.Relation
import MissionGraph.Proofs.Build.Failures
import MissionGraph.Proofs.Graph.Paths
import MissionGraph.Proofs.Outline.Fields

/-!
# Construction in elementary changes

Every step that builds a graph, whether it succeeds or fails, makes a sequence of elementary changes: a new node,
a new child of an open node, a value in a node that can take it, a declaration. What all of these keep therefore
holds of every builder, after any calls.
-/

namespace MissionGraph.Builder

open Mission (Data Factions Field)
open Relation (ReflTransGen)
open Script (Block Condition Fault Pos Program Statement)

/-- The elementary changes of a builder. -/
inductive Change (before : Builder) : Builder → Prop where
  | add (content : Content) (empty : ∀ data, content = .data data → data = .empty) :
      Change before (before.onGraph fun graph => (graph.add content).2)
  | link {parent child : NodeId} {node : Node} (found : before.graph.get? parent = some node) (isOpen : node.Open)
      (known : (∃ node, before.graph.get? child = some node) ∨ ∃ name, (name, child) ∈ before.subs) :
      Change before (before.onGraph (·.link parent child))
  | put {id : NodeId} {field : Field} (taken : takes before.graph id field = true) (factions : Factions) :
      Change before (before.onGraph (·.modifyData id (·.put factions field)))
  | miss (id : NodeId) : Change before (before.onGraph (·.modifyData id Data.missing))
  | offer (id : NodeId) (factions : Factions) :
      Change before (before.onGraph (·.modifyData id fun data => { data with offerGroup := some factions }))
  | group (name : String) (factions : Factions) :
      Change before { before with groups := (name, factions) :: before.groups }
  | sub {id : NodeId} {data : Data} {children : List NodeId} (name : String) (body : List (Statement Pos))
      (found : before.graph.get? id = some ⟨.data data, children⟩) :
      Change before { before with
        subs := (name, id) :: before.subs
        pending := before.pending ++ [(id, body)] }
  | finish : Change before { before with pending := [] }

/-- One builder becomes the other in elementary changes. -/
def Changes : Builder → Builder → Prop :=
  ReflTransGen Change

variable {α β : Type} {before middle after : Builder} {pos : Pos} {parent child cursor id : NodeId} {fault : Fault}

/-! ## What the changes keep -/

/-- A decision has at most two ways out, and apart from groups a data node holds values of one kind at most. -/
structure Limited (node : Node) : Prop where
  ways : ∀ nickname, node.content = .decision nickname → node.children.length ≤ 2
  values : ∀ data, node.content = .data data →
    ∀ first second, data.has first = true → data.has second = true → first = second

/-- What holds of a graph under construction at any time. -/
structure Valid (builder : Builder) : Prop where
  entry : ∃ node, builder.graph.get? Graph.entry = some node
  closed : builder.graph.Closed
  numbered : ∀ id node, builder.graph.get? id = some node → id ≠ Graph.entry →
    3 ≤ id ∧ id < builder.graph.nextId
  room : 3 ≤ builder.graph.nextId
  subs : ∀ name id, (name, id) ∈ builder.subs → ∃ data children, builder.graph.get? id = some ⟨.data data, children⟩
  limited : ∀ id node, builder.graph.get? id = some node → Limited node

namespace Valid

theorem bounded (valid : before.Valid) : before.graph.Bounded := by
  intro id node found
  by_cases isEntry : id = Graph.entry
  · rw [isEntry]
    exact valid.room
  · exact (valid.numbered id node found isEntry).2

theorem start : Builder.start.Valid := by
  have only (id : NodeId) (node : Node) (found : Builder.start.graph.get? id = some node) :
      id = Graph.entry ∧ node = ⟨.data .empty, []⟩ := by
    rw [Builder.start, Graph.get?_insert] at found
    split at found
    · cases found
      exact ⟨‹Graph.entry = id›.symm, rfl⟩
    · rw [Graph.get?_empty] at found
      cases found
  refine ⟨⟨_, Graph.get?_insert_self _ _ _⟩, ?_, ?_, Nat.le_refl _, ?_, ?_⟩
  · intro parent child isChild
    obtain ⟨node, found, member⟩ := Graph.child_iff.mp isChild
    rw [(only parent node found).2] at member
    exact absurd member List.not_mem_nil
  · intro id node found notEntry
    exact absurd (only id node found).1 notEntry
  · intro name id member
    exact absurd member List.not_mem_nil
  · intro id node found
    rw [(only id node found).2]
    refine ⟨fun _ isDecision => (by cases isDecision), ?_⟩
    rintro _ ⟨⟩ first second holds
    cases first <;> cases holds

theorem add (valid : before.Valid) {content : Content} (empty : ∀ data, content = .data data → data = .empty) :
    (before.onGraph fun graph => (graph.add content).2).Valid := by
  have cases {id : NodeId} {node : Node} (found : (before.graph.add content).2.get? id = some node) :
      (id = before.graph.nextId ∧ node = ⟨content, []⟩) ∨ before.graph.get? id = some node := by
    rw [Graph.get?_add] at found
    split at found
    · cases found
      exact .inl ⟨‹before.graph.nextId = id›.symm, rfl⟩
    · exact .inr found
  have still {id : NodeId} {node : Node} (found : before.graph.get? id = some node) :
      (before.graph.add content).2.get? id = some node := by
    rw [Graph.get?_add, if_neg fun same => valid.bounded.ne_nextId found same.symm, found]
  have next : (before.graph.add content).2.nextId = before.graph.nextId + 1 := rfl
  refine ⟨?_, ?_, ?_, ?_, ?_, ?_⟩
  · obtain ⟨node, found⟩ := valid.entry
    exact ⟨node, still found⟩
  · intro parent child isChild
    obtain ⟨node, found, member⟩ := Graph.child_iff.mp isChild
    rcases cases found with ⟨_, rfl⟩ | old
    · exact absurd member List.not_mem_nil
    · obtain ⟨target, foundTarget⟩ := valid.closed parent child (Graph.child_iff.mpr ⟨node, old, member⟩)
      exact ⟨target, still foundTarget⟩
  · intro id node found notEntry
    rw [graph_onGraph, next]
    rcases cases found with ⟨rfl, _⟩ | old
    · exact ⟨valid.room, Nat.lt_succ_self _⟩
    · obtain ⟨above, below⟩ := valid.numbered id node old notEntry
      exact ⟨above, Nat.lt_succ_of_lt below⟩
  · rw [graph_onGraph, next]
    exact Nat.le_succ_of_le valid.room
  · intro name id member
    obtain ⟨data, children, found⟩ := valid.subs name id member
    exact ⟨data, children, still found⟩
  · intro id node found
    rcases cases found with ⟨_, rfl⟩ | old
    · refine ⟨fun _ _ => Nat.zero_le 2, fun data isData first second holds => ?_⟩
      rw [empty data isData] at holds
      cases first <;> cases holds
    · exact valid.limited id node old

/-- What a changed node has to keep. -/
structure Keeps (graph : Graph) (old new : Node) : Prop where
  stored : ∀ child ∈ new.children, ∃ node, graph.get? child = some node
  data : ∀ data, old.content = .data data → ∃ later, new.content = .data later
  limited : Limited new

theorem modify (valid : before.Valid) (id : NodeId) {change : Node → Node}
    (keeps : ∀ node, before.graph.get? id = some node → Keeps before.graph node (change node)) :
    (before.onGraph (·.modify id change)).Valid := by
  have cases {key : NodeId} {node : Node} (found : (before.graph.modify id change).get? key = some node) :
      (key = id ∧ ∃ old, before.graph.get? id = some old ∧ change old = node) ∨ before.graph.get? key = some node := by
    rw [Graph.get?_modify] at found
    split at found
    · rename_i same
      subst same
      obtain ⟨old, foundOld, changed⟩ := Option.map_eq_some_iff.mp found
      exact .inl ⟨rfl, old, foundOld, changed⟩
    · exact .inr found
  have still {key : NodeId} {node : Node} (found : before.graph.get? key = some node) :
      ∃ later, (before.graph.modify id change).get? key = some later ∧
        ∀ data, node.content = .data data → ∃ kept, later.content = .data kept := by
    rw [Graph.get?_modify]
    split
    · rename_i same
      subst same
      exact ⟨change node, by rw [found]; rfl, (keeps node found).data⟩
    · exact ⟨node, found, fun data isData => ⟨data, isData⟩⟩
  have next : (before.graph.modify id change).nextId = before.graph.nextId := Graph.nextId_modify _ _ _
  refine ⟨?_, ?_, ?_, ?_, ?_, ?_⟩
  · obtain ⟨node, found⟩ := valid.entry
    obtain ⟨later, foundLater, _⟩ := still found
    exact ⟨later, foundLater⟩
  · intro parent child isChild
    obtain ⟨node, found, member⟩ := Graph.child_iff.mp isChild
    have stored : ∃ target, before.graph.get? child = some target := by
      rcases cases found with ⟨_, old, foundOld, rfl⟩ | old
      · exact (keeps old foundOld).stored child member
      · exact valid.closed parent child (Graph.child_iff.mpr ⟨node, old, member⟩)
    obtain ⟨target, foundTarget⟩ := stored
    obtain ⟨later, foundLater, _⟩ := still foundTarget
    exact ⟨later, foundLater⟩
  · intro key node found notEntry
    rw [graph_onGraph, next]
    rcases cases found with ⟨rfl, old, foundOld, _⟩ | old
    · exact valid.numbered key old foundOld notEntry
    · exact valid.numbered key node old notEntry
  · rw [graph_onGraph, next]
    exact valid.room
  · intro name target member
    obtain ⟨data, children, found⟩ := valid.subs name target member
    obtain ⟨⟨content, children⟩, foundLater, kept⟩ := still found
    obtain ⟨later, rfl⟩ := kept data rfl
    exact ⟨later, children, foundLater⟩
  · intro key node found
    rcases cases found with ⟨_, old, foundOld, rfl⟩ | old
    · exact (keeps old foundOld).limited
    · exact valid.limited key node old

/-- Changing the data of a node, if what it holds stays of one kind. -/
theorem modifyData (valid : before.Valid) (id : NodeId) {change : Data → Data}
    (keeps : ∀ data children, before.graph.get? id = some ⟨.data data, children⟩ →
      ∀ first second, (change data).has first = true → (change data).has second = true → first = second) :
    (before.onGraph (·.modifyData id change)).Valid := by
  refine valid.modify id fun node found => ?_
  have stored (child : NodeId) (member : child ∈ node.children) :=
    valid.closed id child (Graph.child_iff.mpr ⟨node, found, member⟩)
  have limited := valid.limited id node found
  obtain ⟨content, children⟩ := node
  cases content with
  | data data =>
      refine ⟨stored, fun _ _ => ⟨change data, rfl⟩, ⟨fun _ isDecision => (by cases isDecision), ?_⟩⟩
      rintro _ ⟨⟩
      exact keeps data children found
  | decision nickname => exact ⟨stored, fun _ isData => (by cases isData), limited⟩
  | documentation text => exact ⟨stored, fun _ isData => (by cases isData), limited⟩
  | choice conditions => exact ⟨stored, fun _ isData => (by cases isData), limited⟩

theorem link (valid : before.Valid) {node : Node} (found : before.graph.get? parent = some node)
    (isOpen : node.Open)
    (known : (∃ node, before.graph.get? child = some node) ∨ ∃ name, (name, child) ∈ before.subs) :
    (before.onGraph (·.link parent child)).Valid := by
  refine valid.modify parent fun again foundAgain => ?_
  cases found.symm.trans foundAgain
  have stored : ∃ next, before.graph.get? child = some next := by
    rcases known with stored | ⟨name, member⟩
    · exact stored
    · obtain ⟨data, children, found⟩ := valid.subs name child member
      exact ⟨_, found⟩
  refine ⟨?_, fun data isData => ⟨data, isData⟩, ?_, (valid.limited parent node found).values⟩
  · intro other member
    rcases List.mem_append.mp member with old | isNew
    · exact valid.closed parent other (Graph.child_iff.mpr ⟨node, found, old⟩)
    · cases List.mem_singleton.mp isNew
      exact stored
  · intro nickname isDecision
    rw [List.length_append]
    exact isOpen nickname isDecision

/-- Every elementary change keeps a builder valid. -/
theorem change (valid : before.Valid) (change : Change before after) : after.Valid := by
  cases change with
  | add content empty => exact valid.add empty
  | link found isOpen known => exact valid.link found isOpen known
  | @put id field taken factions =>
      refine valid.modifyData id fun data children found first second holdsFirst holdsSecond => ?_
      have atMostOne := (valid.limited id _ found).values data rfl
      have uniform : data.Uniform := fun kind holds =>
        Data.kind_eq_of_only holds fun other holdsOther => atMostOne other kind holdsOther holds
      rw [takes_of_get? found] at taken
      cases children with
      | nil =>
          have filled : (data.put factions field).Uniform := uniform.put taken
          exact (filled first holdsFirst).symm.trans (filled second holdsSecond)
      | cons child others =>
          have refused : data.accepts .closed field = false := data.accepts_closed field
          cases taken.symm.trans refused
  | miss id =>
      refine valid.modifyData id fun data children found => ?_
      exact (valid.limited id _ found).values data rfl
  | offer id factions =>
      refine valid.modifyData id fun data children found first second holdsFirst holdsSecond => ?_
      have same (kind : Mission.DataKind) :
          ({ data with offerGroup := some factions } : Data).has kind = data.has kind := by
        cases kind <;> rfl
      rw [same] at holdsFirst holdsSecond
      exact (valid.limited id _ found).values data rfl first second holdsFirst holdsSecond
  | group name factions => exact ⟨valid.entry, valid.closed, valid.numbered, valid.room, valid.subs, valid.limited⟩
  | sub name body found =>
      refine ⟨valid.entry, valid.closed, valid.numbered, valid.room, fun other id member => ?_, valid.limited⟩
      rcases List.mem_cons.mp member with isNew | old
      · cases isNew
        exact ⟨_, _, found⟩
      · exact valid.subs other id old
  | finish => exact ⟨valid.entry, valid.closed, valid.numbered, valid.room, valid.subs, valid.limited⟩

theorem changes (valid : before.Valid) (changes : Changes before after) : after.Valid := by
  induction changes with
  | refl => exact valid
  | tail _ last ih => exact ih.change last

end Valid

/-! ## What the steps do -/

/-- The step leaves the second builder, be it that it succeeds or fails. -/
def Leaves (step : Build α) (before after : Builder) : Prop :=
  (∃ value, Runs step before value after) ∨ ∃ fault, Fails step before fault after

theorem leaves_bind_iff {first : Build α} {next : α → Build β} :
    Leaves (first >>= next) before after ↔
      (∃ fault, Fails first before fault after) ∨
        ∃ value middle, Runs first before value middle ∧ Leaves (next value) middle after := by
  simp only [Leaves, runs_bind_iff, fails_bind_iff]
  constructor
  · rintro (⟨result, value, middle, first, second⟩ | ⟨fault, first | ⟨value, middle, first, second⟩⟩)
    · exact .inr ⟨value, middle, first, .inl ⟨result, second⟩⟩
    · exact .inl ⟨fault, first⟩
    · exact .inr ⟨value, middle, first, .inr ⟨fault, second⟩⟩
  · rintro (⟨fault, first⟩ | ⟨value, middle, first, ⟨result, second⟩ | ⟨fault, second⟩⟩)
    · exact .inr ⟨fault, .inl first⟩
    · exact .inl ⟨result, value, middle, first, second⟩
    · exact .inr ⟨fault, .inr ⟨value, middle, first, second⟩⟩

/-- On a valid builder the step makes elementary changes only. -/
def Traced (step : Build α) : Prop :=
  ∀ before after, before.Valid → Leaves step before after → Changes before after

theorem Traced.bind {first : Build α} {next : α → Build β} (traced : Traced first)
    (later : ∀ value, Traced (next value)) : Traced (first >>= next) := by
  intro before after valid leaves
  rcases leaves_bind_iff.mp leaves with fails | ⟨value, middle, runs, leaves⟩
  · exact traced before after valid (.inr fails)
  · have changes := traced before middle valid (.inl ⟨value, runs⟩)
    exact changes.trans (later value middle after (valid.changes changes) leaves)

theorem traced_pure (value : α) : Traced (pure value) := by
  rintro before after _ (⟨_, runs⟩ | ⟨_, fails⟩)
  · obtain ⟨_, rfl⟩ := runs_pure_iff.mp runs
    exact .refl
  · exact absurd fails not_fails_pure

theorem traced_fail (pos : Pos) (cause : Script.Cause) : Traced (fail pos cause : Build α) := by
  rintro before after _ (⟨_, runs⟩ | ⟨_, fails⟩)
  · exact absurd runs not_runs_fail
  · obtain ⟨_, rfl⟩ := fails_fail_iff.mp fails
    exact .refl

/-- A step that looks at the builder first. -/
theorem traced_get_bind {next : Builder → Build α}
    (later : ∀ before : Builder, before.Valid → ∀ after, Leaves (next before) before after → Changes before after) :
    Traced (get >>= next) := by
  intro before after valid leaves
  rcases leaves_bind_iff.mp leaves with ⟨_, fails⟩ | ⟨_, _, got, leaves⟩
  · exact absurd fails not_fails_get
  · obtain ⟨rfl, rfl⟩ := runs_get_iff.mp got
    exact later _ valid after leaves

theorem traced_modifyGraph {change : Graph → Graph}
    (isChange : ∀ before : Builder, before.Valid → Change before (before.onGraph change)) :
    Traced (modifyGraph change) := by
  rintro before after valid (⟨_, runs⟩ | ⟨_, fails⟩)
  · obtain rfl := runs_modifyGraph_iff.mp runs
    exact .single (isChange before valid)
  · exact absurd fails not_fails_modifyGraph

/-- A new node behind an open one. -/
theorem changes_grow {node : Node} (valid : before.Valid) (found : before.graph.get? parent = some node)
    (isOpen : node.Open) {content : Content} (empty : ∀ data, content = .data data → data = .empty) :
    Changes before (before.onGraph (·.grow parent content)) := by
  have added : Change before _ := .add content empty
  have foundStill : (before.graph.add content).2.get? parent = some node := by
    rw [Graph.get?_add, if_neg fun same => valid.bounded.ne_nextId found same.symm, found]
  have stored : (before.graph.add content).2.get? before.graph.nextId = some ⟨content, []⟩ := by
    rw [Graph.get?_add, if_pos rfl]
  exact .tail (.single added) (.link foundStill isOpen (.inl ⟨_, stored⟩))

theorem traced_newData (pos : Pos) (parent : NodeId) : Traced (newData pos parent) := by
  rintro before after valid (⟨_, runs⟩ | ⟨_, fails⟩)
  · obtain ⟨⟨node, found, isOpen⟩, _, rfl⟩ := runs_newData_iff.mp runs
    exact changes_grow valid found isOpen fun _ isData => (by cases isData; rfl)
  · obtain ⟨_, rfl⟩ := fails_newData_iff.mp fails
    exact .refl

theorem traced_findGroup (pos : Pos) (name : String) : Traced (findGroup pos name) := by
  rintro before after _ (⟨_, runs⟩ | ⟨_, fails⟩)
  · obtain ⟨_, rfl⟩ := runs_findGroup_iff.mp runs
    exact .refl
  · obtain ⟨_, _, rfl⟩ := fails_findGroup_iff.mp fails
    exact .refl

/-- Making a node and appending it to the children of another one; if that is not possible, the node stays. -/
theorem traced_addNode_attach {content : Content} (empty : ∀ data, content = .data data → data = .empty)
    {next : NodeId → Build α} (later : ∀ id, Traced (next id)) (pos : Pos) (parent : NodeId) :
    Traced (addNode content >>= fun id => attach pos parent id >>= fun _ => next id) := by
  intro before after valid leaves
  rcases leaves_bind_iff.mp leaves with ⟨_, fails⟩ | ⟨id, middle, added, leaves⟩
  · exact absurd fails not_fails_addNode
  obtain ⟨rfl, rfl⟩ := runs_addNode_iff.mp added
  have first : Change before _ := .add content empty
  rcases leaves_bind_iff.mp leaves with ⟨_, fails⟩ | ⟨_, _, attached, leaves⟩
  · obtain ⟨_, rfl⟩ := fails_attach_iff.mp fails
    exact .single first
  · obtain ⟨⟨node, found, isOpen⟩, rfl⟩ := runs_attach_iff.mp attached
    have stored : (before.graph.add content).2.get? before.graph.nextId = some ⟨content, []⟩ := by
      rw [Graph.get?_add, if_pos rfl]
    have changes : Changes before _ := .tail (.single first) (.link found isOpen (.inl ⟨_, stored⟩))
    exact changes.trans (later _ _ _ (valid.changes changes) leaves)

/-- Puts a field into a node that can take it. -/
theorem changes_fill {field : Field} {target : NodeId} (taken : takes before.graph target field = true)
    (leaves : Leaves (fill pos field target) before after) : Changes before after := by
  rcases leaves with ⟨_, runs⟩ | ⟨_, fails⟩
  · obtain ⟨factions, _, _, rfl⟩ := runs_fill_iff.mp runs
    exact .single (.put taken factions)
  · obtain ⟨_, _, _, _, rfl⟩ := fails_fill_iff.mp fails
    exact .refl

theorem traced_addField (pos : Pos) (cursor : NodeId) (field : Field) : Traced (addField pos cursor field) := by
  rw [addField_eq]
  refine traced_get_bind fun before valid after leaves => ?_
  split at leaves
  · exact changes_fill ‹_› leaves
  · rcases leaves_bind_iff.mp leaves with fails | ⟨target, middle, made, leaves⟩
    · exact traced_newData pos cursor _ _ valid (.inr fails)
    · have changes := traced_newData pos cursor _ _ valid (.inl ⟨_, made⟩)
      obtain ⟨⟨node, found, _⟩, rfl, rfl⟩ := runs_newData_iff.mp made
      refine changes.trans (changes_fill ?_ leaves)
      -- a new node can take every field
      have stored := Graph.get?_grow_nextId (valid.bounded.ne_nextId found) (.data .empty)
      rw [graph_onGraph, takes_of_get? stored]
      exact accepts_empty field

theorem traced_addUnimplemented (pos : Pos) (cursor : NodeId) : Traced (addUnimplemented pos cursor) := by
  have marks (target : NodeId) :
      Traced (modifyGraph (·.modifyData target Data.missing) >>= fun _ => pure target) :=
    (traced_modifyGraph fun _ _ => .miss target).bind fun _ => traced_pure target
  rw [addUnimplemented_eq]
  refine traced_get_bind fun before valid after => Traced.bind ?_ marks before after valid
  split
  · exact traced_pure cursor
  · exact traced_newData pos cursor

/-- A call leads to the node of a declared sub. -/
theorem traced_call (pos : Pos) (cursor : NodeId) (name : String) :
    Traced (findSub pos name >>= fun target => attach pos cursor target >>= fun _ => pure cursor) := by
  intro before after valid leaves
  rcases leaves_bind_iff.mp leaves with ⟨_, unknown⟩ | ⟨target, middle, resolved, following⟩
  · obtain ⟨_, _, rfl⟩ := fails_findSub_iff.mp unknown
    exact .refl
  obtain ⟨known, same⟩ := runs_findSub_iff.mp resolved
  rw [same] at following
  rcases leaves_bind_iff.mp following with ⟨_, blocked⟩ | ⟨_, _, attached, finished⟩
  · obtain ⟨_, rfl⟩ := fails_attach_iff.mp blocked
    exact .refl
  · obtain ⟨⟨node, found, isOpen⟩, rfl⟩ := runs_attach_iff.mp attached
    have listed : (name, target) ∈ before.subs := by
      obtain ⟨first, second, parts, _⟩ := List.lookup_eq_some_iff.mp known
      rw [parts]
      exact List.mem_append_right _ List.mem_cons_self
    have linked : Changes before _ := .single (.link found isOpen (.inr ⟨name, listed⟩))
    exact linked.trans (traced_pure cursor _ _ (valid.changes linked) finished)

theorem traced_addChoice {pos : Pos} {block : Block Pos} {rest : List (Block Pos)}
    (ofBlock : ∀ id, Traced (addBlock pos id block)) (ofRest : ∀ id, Traced (addLaterBlocks pos id rest)) :
    Traced (addChoice pos cursor (block :: rest)) := by
  rw [addChoice_cons]
  cases named : block.condition.nickname? with
  | none =>
      intro before after valid leaves
      rcases leaves_bind_iff.mp leaves with ⟨_, fails⟩ | ⟨_, _, runs, _⟩
      · obtain ⟨_, _, rfl⟩ := fails_addDecision_iff.mp fails
        exact .refl
      · exact absurd runs (not_runs_addDecision named)
  | some nickname =>
      rw [addDecision_eq named]
      refine traced_addNode_attach (fun _ isData => by cases isData) (fun id => ?_) pos cursor
      exact ((ofBlock id).bind fun _ => ofRest id).bind fun _ => traced_pure id

/-- Adding a statement, an `if`, later blocks, a block or a sequence. -/
theorem traced_add :
    (∀ cursor statement, Traced (addStatement cursor statement)) ∧
      (∀ pos cursor blocks, Traced (addChoice pos cursor blocks)) ∧
      (∀ pos decision blocks, Traced (addLaterBlocks pos decision blocks)) ∧
      (∀ pos parent block, Traced (addBlock pos parent block)) ∧
      (∀ cursor statements, Traced (addSequence cursor statements)) := by
  apply construction_induction
  case sub | group =>
    intros
    exact traced_fail _ _
  case choice =>
    intro cursor pos blocks ih
    rwa [addStatement]
  case call =>
    intro cursor pos name
    rw [addStatement]
    exact traced_call pos cursor name
  case unimplemented =>
    intro cursor pos
    rw [addStatement]
    exact traced_addUnimplemented pos cursor
  case doc =>
    intro cursor pos name
    rw [addStatement]
    exact traced_addNode_attach (fun _ isData => by cases isData) traced_pure pos cursor
  case field =>
    intro cursor pos field
    rw [addStatement]
    exact traced_addField pos cursor field
  case groupBlock =>
    intro pos parent name body ih
    rw [addBlock]
    refine (traced_findGroup pos name).bind fun factions => (traced_newData pos parent).bind fun id => ?_
    exact (traced_modifyGraph fun _ _ => .offer id factions).bind fun _ => (ih id).bind fun _ => traced_pure ()
  case innerChoice =>
    intro pos parent condition inner blocks notGroup ih
    rw [addBlock_innerChoice notGroup]
    exact ih.bind fun _ => traced_pure ()
  case pastChoice =>
    intro pos parent condition note blocks extra tail notGroup
    rw [addBlock_pastChoice notGroup]
    exact traced_fail _ _
  case plainBlock =>
    intro pos parent condition body notGroup notChoice ih
    rw [addBlock_plain notGroup notChoice]
    exact (traced_newData pos parent).bind fun id => (ih id).bind fun _ => traced_pure ()
  case noStatement =>
    intro cursor
    rw [addSequence]
    exact traced_pure cursor
  case statements =>
    intro cursor statement rest ofStatement ofRest
    rw [addSequence]
    exact ofStatement.bind ofRest
  case noBlock =>
    intro pos cursor
    exact traced_fail pos _
  case blocks =>
    intro pos cursor block rest ofBlock ofRest
    exact traced_addChoice ofBlock ofRest
  case noLaterBlock =>
    intro pos decision
    rw [addLaterBlocks]
    exact traced_pure ()
  case lastBlock =>
    intro pos decision block ih
    rwa [addLaterBlocks]
  case laterBlocks =>
    intro pos decision block next rest ih
    rw [addLaterBlocks_cons_cons]
    exact ih.bind fun _ => traced_pure ()

theorem traced_addSequence (cursor : NodeId) (statements : List (Statement Pos)) :
    Traced (addSequence cursor statements) :=
  traced_add.2.2.2.2 cursor statements

/-! ## Calls -/

theorem traced_declareGroup (pos : Pos) (group : Script.Group) : Traced (declareGroup pos group) := by
  rintro before after _ (⟨_, runs⟩ | ⟨_, fails⟩)
  · obtain ⟨_, rfl⟩ := runs_declareGroup_iff.mp runs
    exact .single (.group _ _)
  · obtain ⟨_, _, rfl⟩ := fails_declareGroup_iff.mp fails
    exact .refl

theorem traced_declareSub (pos : Pos) (name : String) (body : List (Statement Pos)) :
    Traced (declareSub pos name body) := by
  rintro before after _ (⟨_, runs⟩ | ⟨_, fails⟩)
  · obtain ⟨_, rfl⟩ := runs_declareSub_iff.mp runs
    have added : Change before _ := .add (.data .empty) fun _ isData => (by cases isData; rfl)
    have stored : (before.graph.add (.data .empty)).2.get? before.graph.nextId = some ⟨.data .empty, []⟩ := by
      rw [Graph.get?_add, if_pos rfl]
    exact .tail (.single added) (.sub name body stored)
  · obtain ⟨_, _, rfl⟩ := fails_declareSub_iff.mp fails
    exact .refl

theorem traced_declare (script : List (Statement Pos)) : Traced (declare script) := by
  fun_induction declare script with
  | case1 => exact traced_pure []
  | case2 pos group rest ih => exact (traced_declareGroup pos group).bind fun _ => ih
  | case3 pos name body rest ih => exact (traced_declareSub pos name body).bind fun _ => ih
  | case4 statement rest _ _ ih => exact ih.bind fun others => traced_pure (statement :: others)

theorem traced_addBodies (bodies : List (NodeId × List (Statement Pos))) : Traced (addBodies bodies) := by
  induction bodies with
  | nil => exact traced_pure ()
  | cons body rest ih =>
      obtain ⟨id, statements⟩ := body
      exact (traced_addSequence id statements).bind fun _ => ih

theorem traced_addScript (statements : List (Statement Pos)) : Traced (addScript statements) := by
  have finish : Traced (modify fun builder => { builder with pending := [] } : Build Unit) := by
    rintro before after _ (⟨_, runs⟩ | ⟨_, fails⟩)
    · obtain rfl := runs_modify_iff.mp runs
      exact .single .finish
    · exact absurd fails not_fails_modify
  refine (traced_addSequence Graph.entry statements).bind fun _ => traced_get_bind fun before valid after => ?_
  exact finish.bind (fun _ => traced_addBodies before.pending) before after valid

/-- What a caller can ask of a builder: to take the declarations out of a script, or to add statements and the
bodies that are pending. -/
inductive Call where
  | declarations (script : Program)
  | body (statements : List (Statement Pos))

namespace Call

def step : Call → Build Unit
  | .declarations script => do
      let _ ← declare script
      return ()
  | .body statements => addScript statements

theorem traced_step (call : Call) : Traced call.step := by
  cases call with
  | declarations script => exact (traced_declare script).bind fun _ => traced_pure ()
  | body statements => exact traced_addScript statements

/-- The builder after a call, be it that the call succeeds or fails. -/
def perform (builder : Builder) (call : Call) : Builder :=
  match call.step.run builder with
  | .ok _ after => after
  | .error _ after => after

theorem leaves_perform (builder : Builder) (call : Call) : Leaves call.step builder (call.perform builder) := by
  unfold perform
  split
  · exact .inl ⟨_, ‹_›⟩
  · exact .inr ⟨_, ‹_›⟩

end Call

/-- Calls one after the other, each on what the one before it has left, make elementary changes only. -/
theorem changes_calls (calls : List Call) (valid : before.Valid) : Changes before (calls.foldl Call.perform before) := by
  induction calls generalizing before with
  | nil => exact .refl
  | cons call rest ih =>
      have changes := call.traced_step _ _ valid (call.leaves_perform before)
      exact changes.trans (ih (valid.changes changes))

/-- Whatever is asked of a builder, and whether the calls succeed or not: the entry is stored, and so are all
children; the other numbers lie between 3 and the next one; every sub has a data node; a decision has at most two
ways out; and apart from groups a data node holds values of one kind at most. -/
theorem valid_after_calls (calls : List Call) : (calls.foldl Call.perform Builder.start).Valid :=
  Valid.start.changes (changes_calls calls .start)

end MissionGraph.Builder
