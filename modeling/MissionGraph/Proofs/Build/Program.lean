import MissionGraph.Proofs.Build.Layout

/-!
# How a whole script lies in its graph

The declarations come first: every sub gets an empty node. Then the other statements are laid out from
the entry on, and the body of every sub from its node on.
-/

namespace MissionGraph

open Mission (Factions)
open Script (Block Pos Statement)

namespace Script

variable {α : Type}

/-- The statements of a script that declare nothing. -/
def mains : List (Statement α) → List (Statement α)
  | [] => []
  | .group _ _ :: rest => mains rest
  | .sub _ _ _ :: rest => mains rest
  | statement :: rest => statement :: mains rest

/-- The declared groups in the order of the text. -/
def groupsOf : List (Statement α) → List (String × Factions)
  | [] => []
  | .group _ group :: rest => (group.name, ⟨group.factions⟩) :: groupsOf rest
  | _ :: rest => groupsOf rest

/-- The declared subs in the order of the text, numbered from the first number on. -/
def subsFrom (first : NodeId) : List (Statement α) → List (NodeId × String × List (Statement α))
  | [] => []
  | .sub _ name body :: rest => (first, name, body) :: subsFrom (first + 1) rest
  | _ :: rest => subsFrom first rest

/-- The numbered subs of a script. -/
def subsOf (script : List (Statement α)) : List (NodeId × String × List (Statement α)) :=
  subsFrom (Graph.entry + 1) script

/-- What the statements of a script can refer to. -/
def scopeOf (script : List (Statement α)) : Scope where
  groups := (groupsOf script).reverse
  subs := ((subsOf script).map fun (id, name, _) => (name, id)).reverse

/-- The nodes from which the script is laid out, each with its statements. -/
def bodiesOf (script : List (Statement α)) : List (NodeId × List (Statement α)) :=
  (Graph.entry, mains script) :: (subsOf script).map fun (id, _, body) => (id, body)

end Script

namespace Builder

open Script

/-- What the declarations of a script do to a builder. -/
structure Declared (script : List (Statement Pos)) (before after : Builder) : Prop where
  groups : after.groups = (groupsOf script).reverse ++ before.groups
  subs : after.subs =
    ((subsFrom before.graph.nextId script).map fun (id, name, _) => (name, id)).reverse ++ before.subs
  pending : after.pending =
    before.pending ++ (subsFrom before.graph.nextId script).map fun (id, _, body) => (id, body)
  nextId : after.graph.nextId = before.graph.nextId + (subsFrom before.graph.nextId script).length
  older : ∀ id, id < before.graph.nextId → after.graph.get? id = before.graph.get? id
  newer : ∀ id, before.graph.nextId ≤ id → id < after.graph.nextId →
    after.graph.get? id = some ⟨.data .empty, []⟩
  bounded : before.graph.Bounded → after.graph.Bounded

theorem runs_declareGroup_iff {pos : Pos} {group : Group} {before after : Builder} {result : Unit} :
    Runs (declareGroup pos group) before result after ↔
      before.groups.lookup group.name = none ∧
        after = { before with groups := (group.name, ⟨group.factions⟩) :: before.groups } := by
  rw [declareGroup, runs_bind_iff]
  constructor
  · rintro ⟨_, _, got, runs⟩
    obtain ⟨rfl, rfl⟩ := runs_get_iff.mp got
    dsimp only at runs
    split at runs
    · obtain ⟨_, _, failed, _⟩ := runs_bind_iff.mp runs
      exact absurd failed not_runs_fail
    · rename_i unknown
      exact ⟨Option.not_isSome_iff_eq_none.mp unknown, runs_modify_iff.mp runs⟩
  · rintro ⟨unknown, rfl⟩
    refine ⟨_, _, runs_get_iff.mpr ⟨rfl, rfl⟩, ?_⟩
    rw [if_neg (by simp [unknown])]
    exact runs_modify_iff.mpr rfl

theorem runs_declareSub_iff {pos : Pos} {name : String} {body : List (Statement Pos)}
    {before after : Builder} {result : Unit} :
    Runs (declareSub pos name body) before result after ↔
      before.subs.lookup name = none ∧
        after = { before with
          graph := (before.graph.add (.data .empty)).2
          subs := (name, before.graph.nextId) :: before.subs
          pending := before.pending ++ [(before.graph.nextId, body)] } := by
  rw [declareSub, runs_bind_iff]
  constructor
  · rintro ⟨_, _, got, runs⟩
    obtain ⟨rfl, rfl⟩ := runs_get_iff.mp got
    dsimp only at runs
    split at runs
    · obtain ⟨_, _, failed, _⟩ := runs_bind_iff.mp runs
      exact absurd failed not_runs_fail
    · rename_i unknown
      obtain ⟨_, _, added, changed⟩ := runs_bind_iff.mp runs
      obtain ⟨rfl, rfl⟩ := runs_addNode_iff.mp added
      exact ⟨Option.not_isSome_iff_eq_none.mp unknown, runs_modify_iff.mp changed⟩
  · rintro ⟨unknown, rfl⟩
    refine ⟨_, _, runs_get_iff.mpr ⟨rfl, rfl⟩, ?_⟩
    rw [if_neg (by simp [unknown])]
    exact runs_bind_iff.mpr ⟨_, _, runs_addNode_iff.mpr ⟨rfl, rfl⟩, runs_modify_iff.mpr rfl⟩

/-- The declarations are taken out of a script, and its other statements are left. -/
theorem runs_declare {script others : List (Statement Pos)} {before after : Builder}
    (runs : Runs (declare script) before others after) :
    others = mains script ∧ Declared script before after := by
  induction script generalizing before others with
  | nil =>
      obtain ⟨rfl, rfl⟩ := runs_pure_iff.mp runs
      exact ⟨rfl, rfl, rfl, by simp [subsFrom], rfl, fun _ _ => rfl,
        fun id new old => absurd new (Nat.not_le.mpr old), id⟩
  | cons statement rest ih =>
      cases statement with
      | group pos group =>
          obtain ⟨_, _, declared, following⟩ := runs_bind_iff.mp runs
          obtain ⟨_, rfl⟩ := runs_declareGroup_iff.mp declared
          obtain ⟨same, ⟨groups, subs, pending, nextId, older, newer, bounded⟩⟩ := ih following
          refine ⟨same, ⟨?_, subs, pending, nextId, older, newer, bounded⟩⟩
          rw [groups, groupsOf]
          simp
      | sub pos name body =>
          obtain ⟨_, _, declared, following⟩ := runs_bind_iff.mp runs
          obtain ⟨_, rfl⟩ := runs_declareSub_iff.mp declared
          obtain ⟨same, ⟨groups, subs, pending, nextId, older, newer, bounded⟩⟩ := ih following
          have next : (before.graph.add (.data .empty)).2.nextId = before.graph.nextId + 1 := rfl
          rw [next] at subs pending nextId older newer
          refine ⟨same, ⟨groups, ?_, ?_, ?_, ?_, ?_, ?_⟩⟩
          · rw [subs, subsFrom]
            simp
          · rw [pending, subsFrom]
            simp
          · rw [nextId, subsFrom, List.length_cons, Nat.add_assoc, Nat.add_comm 1]
          · intro id old
            rw [older id (Nat.lt_succ_of_lt old), Graph.get?_add, if_neg (Nat.ne_of_gt old)]
          · intro id new old
            by_cases isFirst : before.graph.nextId = id
            · rw [older id (isFirst ▸ Nat.lt_succ_self _), Graph.get?_add, if_pos isFirst]
            · exact newer id (Nat.lt_of_le_of_ne new isFirst) old
          · intro below
            refine bounded ?_
            intro id node found
            rw [Graph.get?_add] at found
            split at found
            · rename_i isFirst
              exact isFirst ▸ Nat.lt_succ_self _
            · exact Nat.lt_succ_of_lt (below id node found)
      | _ =>
          obtain ⟨_, _, declared, following⟩ := runs_bind_iff.mp runs
          obtain ⟨rfl, rfl⟩ := runs_pure_iff.mp following
          obtain ⟨rfl, ⟨groups, subs, pending, nextId, older, newer, bounded⟩⟩ := ih declared
          exact ⟨rfl, ⟨groups, subs, pending, nextId, older, newer, bounded⟩⟩

/-- The bodies start at different empty nodes, and every `if` in them has several blocks. -/
structure Ready (bodies : List (NodeId × List (Statement Pos))) (builder : Builder) : Prop where
  bounded : builder.graph.Bounded
  different : (bodies.map Prod.fst).Nodup
  empty : ∀ root ∈ bodies.map Prod.fst, builder.graph.get? root = some ⟨.data .empty, []⟩
  forks : ∀ root body, (root, body) ∈ bodies → Forks (Statement.walkBody body)

/-- What was built from one builder to another are bodies, and no other node was touched. -/
structure LaysBodies (bodies : List (NodeId × List (Statement Pos))) (before after : Builder) : Prop where
  scope : after.scope = before.scope
  nextId : before.graph.nextId ≤ after.graph.nextId
  bounded : after.graph.Bounded
  others : ∀ id, id < before.graph.nextId → id ∉ bodies.map Prod.fst →
    after.graph.get? id = before.graph.get? id
  lays : ∀ graph, Holds graph before after →
    (∀ root ∈ bodies.map Prod.fst, graph.get? root = after.graph.get? root) →
      Layouts graph before.scope bodies before.graph.nextId after.graph.nextId

theorem Ready.older {bodies : List (NodeId × List (Statement Pos))} {before : Builder} (ready : Ready bodies before) :
    ∀ root ∈ bodies.map Prod.fst, root < before.graph.nextId :=
  fun root member => ready.bounded _ _ (ready.empty root member)

/-- Adding one body leaves the others ready. -/
theorem Ready.rest {root last : NodeId} {body : List (Statement Pos)}
    {bodies : List (NodeId × List (Statement Pos))} {before middle : Builder}
    (ready : Ready ((root, body) :: bodies) before) (added : Runs (addSequence root body) before last middle) :
    Ready bodies middle := by
  obtain ⟨fresh, differentRest⟩ := List.nodup_cons.mp ready.different
  obtain ⟨frame, _, _⟩ :=
    framed_addSequence _ _ _ _ _ ready.bounded ⟨_, ready.empty root List.mem_cons_self⟩ added
  refine ⟨frame.bounded, differentRest, ?_, ?_⟩
  · intro other member
    have listed := List.mem_cons_of_mem root member
    rw [frame.others other (ready.older other listed) ?_, ready.empty other listed]
    rintro rfl
    exact fresh member
  · exact fun other statements member => ready.forks other statements (List.mem_cons_of_mem _ member)

/-- What comes of the other bodies does not touch a body that has been added. -/
theorem LaysBodies.cons {root last : NodeId} {body : List (Statement Pos)}
    {bodies : List (NodeId × List (Statement Pos))} {before middle after : Builder}
    (ready : Ready ((root, body) :: bodies) before)
    (added : Runs (addSequence root body) before last middle)
    (rest : LaysBodies bodies middle after) :
    LaysBodies ((root, body) :: bodies) before after := by
  obtain ⟨fresh, _⟩ := List.nodup_cons.mp ready.different
  have emptyRoot := ready.empty root List.mem_cons_self
  obtain ⟨frame, _, _⟩ := framed_addSequence _ _ _ _ _ ready.bounded ⟨_, emptyRoot⟩ added
  refine ⟨rest.scope.trans frame.scope, Nat.le_trans frame.nextId rest.nextId, rest.bounded, ?_, ?_⟩
  · intro id old notRoot
    obtain ⟨notFirst, notRest⟩ := List.ne_and_not_mem_of_not_mem_cons notRoot
    rw [rest.others id (Nat.lt_of_lt_of_le old frame.nextId) notRest, frame.others id old notFirst]
  · intro graph holds roots
    have holdsFirst : Holds graph before middle := by
      intro id new old
      rw [holds id new (Nat.lt_of_lt_of_le old rest.nextId), rest.others id old]
      intro member
      exact Nat.lt_irrefl _ (Nat.lt_of_lt_of_le (ready.older id (List.mem_cons_of_mem _ member)) new)
    have atRoot : graph.get? root = middle.graph.get? root := by
      rw [roots root List.mem_cons_self, rest.others root ?_ fresh]
      exact Nat.lt_of_lt_of_le (ready.bounded _ _ emptyRoot) frame.nextId
    have layout := lays_add.2.2.2.2 root body _ _ _ _ graph ready.bounded emptyRoot
      (ready.forks root body List.mem_cons_self) added atRoot holdsFirst
    have layouts := rest.lays graph (holds.later frame.nextId)
      fun other member => roots other (List.mem_cons_of_mem _ member)
    rw [frame.scope] at layouts
    exact .cons layout layouts

theorem laysBodies_addBodies {bodies : List (NodeId × List (Statement Pos))} {before after : Builder}
    (ready : Ready bodies before) (runs : Runs (addBodies bodies) before () after) :
    LaysBodies bodies before after := by
  induction bodies generalizing before with
  | nil =>
      obtain ⟨_, rfl⟩ := runs_pure_iff.mp runs
      exact ⟨rfl, Nat.le_refl _, ready.bounded, fun _ _ _ => rfl, fun _ _ _ => .nil⟩
  | cons first rest ih =>
      obtain ⟨last, middle, added, following⟩ := runs_bind_iff.mp runs
      exact .cons ready added (ih (ready.rest added) following)

/-- The statements behind the entry are added first, then all bodies that are pending. -/
theorem laysBodies_addScript {statements : List (Statement Pos)} {before after : Builder}
    (ready : Ready ((Graph.entry, statements) :: before.pending) before)
    (runs : Runs (addScript statements) before () after) :
    LaysBodies ((Graph.entry, statements) :: before.pending) before after := by
  obtain ⟨last, middle, added, following⟩ := runs_bind_iff.mp runs
  refine .cons ready added ?_
  have readyRest := ready.rest added
  obtain ⟨_, built, got, clearing⟩ := runs_bind_iff.mp following
  obtain ⟨rfl, rfl⟩ := runs_get_iff.mp got
  obtain ⟨_, _, cleared, adding⟩ := runs_bind_iff.mp clearing
  obtain rfl := runs_modify_iff.mp cleared
  have stored := ready.empty Graph.entry List.mem_cons_self
  obtain ⟨frame, _, _⟩ := framed_addSequence _ _ _ _ _ ready.bounded ⟨_, stored⟩ added
  rw [frame.pending] at adding
  have readyCleared : Ready before.pending { built with pending := [] } :=
    ⟨readyRest.bounded, readyRest.different, readyRest.empty, readyRest.forks⟩
  have lays := laysBodies_addBodies readyCleared adding
  exact ⟨lays.scope, lays.nextId, lays.bounded, lays.others, lays.lays⟩

theorem bounded_start : start.graph.Bounded := by
  intro id node found
  rw [start, Graph.get?_insert] at found
  split at found
  · rename_i isEntry
    exact isEntry ▸ Nat.lt_succ_self _
  · rw [Graph.get?_empty] at found
    cases found

end Builder

/-- The script is laid out in the graph, and the graph stores nothing else. -/
structure LaidOut {α : Type} (script : List (Statement α)) (graph : Graph) : Prop where
  layouts : Layouts graph (Script.scopeOf script) (Script.bodiesOf script)
    (Graph.entry + 1 + (Script.subsOf script).length) graph.nextId
  stored : ∀ id node, graph.get? id = some node → Graph.entry ≤ id ∧ id < graph.nextId

namespace Script

variable {α : Type}

theorem map_fst_subsFrom (first : NodeId) (script : List (Statement α)) :
    (subsFrom first script).map Prod.fst = List.range' first (subsFrom first script).length := by
  fun_induction subsFrom first script with
  | case1 => rfl
  | case2 first note name body rest ih => simp [List.range'_succ, ih]
  | case3 first statement rest _ ih => exact ih

theorem mem_walkBody_of_mem_mains {statement : Statement α} {script : List (Statement α)}
    (member : statement ∈ Statement.walkBody (mains script)) : statement ∈ Statement.walkBody script := by
  fun_induction mains script with
  | case1 => exact member
  | case2 note group rest ih => exact List.mem_append_right _ (ih member)
  | case3 note name body rest ih => exact List.mem_append_right _ (ih member)
  | case4 first rest _ _ ih =>
      rcases List.mem_append.mp member with inFirst | inRest
      · exact List.mem_append_left _ inFirst
      · exact List.mem_append_right _ (ih inRest)

theorem exists_mem_of_mem_subsFrom {first id : NodeId} {name : String} {body script : List (Statement α)}
    (declared : (id, name, body) ∈ subsFrom first script) : ∃ note, .sub note name body ∈ script := by
  fun_induction subsFrom first script with
  | case1 => cases declared
  | case2 first note other inner rest ih =>
      rcases List.mem_cons.mp declared with same | later
      · cases same
        exact ⟨note, List.mem_cons_self⟩
      · obtain ⟨found, member⟩ := ih later
        exact ⟨found, List.mem_cons_of_mem _ member⟩
  | case3 first other rest _ ih =>
      obtain ⟨found, member⟩ := ih declared
      exact ⟨found, List.mem_cons_of_mem _ member⟩

theorem exists_mem_subsFrom {note : α} {name : String} {body script : List (Statement α)}
    (declared : .sub note name body ∈ script) (first : NodeId) : ∃ id, (id, name, body) ∈ subsFrom first script := by
  fun_induction subsFrom first script with
  | case1 => cases declared
  | case2 first other named inner rest ih =>
      rcases List.mem_cons.mp declared with same | later
      · cases same
        exact ⟨first, List.mem_cons_self⟩
      · obtain ⟨id, member⟩ := ih later
        exact ⟨id, List.mem_cons_of_mem _ member⟩
  | case3 first other rest notSub ih =>
      rcases List.mem_cons.mp declared with same | later
      · exact absurd same.symm (notSub note name body)
      · exact ih later

theorem exists_mem_of_mem_groupsOf {name : String} {factions : Factions} {script : List (Statement α)}
    (declared : (name, factions) ∈ groupsOf script) :
    ∃ note group, .group note group ∈ script ∧ name = group.name ∧ factions = ⟨group.factions⟩ := by
  fun_induction groupsOf script with
  | case1 => cases declared
  | case2 note group rest ih =>
      rcases List.mem_cons.mp declared with same | later
      · cases same
        exact ⟨note, group, List.mem_cons_self, rfl, rfl⟩
      · obtain ⟨place, found, member, sameName, sameFactions⟩ := ih later
        exact ⟨place, found, List.mem_cons_of_mem _ member, sameName, sameFactions⟩
  | case3 other rest _ ih =>
      obtain ⟨place, found, member, sameName, sameFactions⟩ := ih declared
      exact ⟨place, found, List.mem_cons_of_mem _ member, sameName, sameFactions⟩

/-- What stands inside a statement of a list stands inside the list. -/
theorem mem_walkBody_of_mem_walk {statement inner : Statement α} {statements : List (Statement α)}
    (listed : statement ∈ statements) (member : inner ∈ statement.walk) : inner ∈ Statement.walkBody statements := by
  induction statements with
  | nil => cases listed
  | cons head rest ih =>
      rcases List.mem_cons.mp listed with rfl | later
      · exact List.mem_append_left _ member
      · exact List.mem_append_right _ (ih later)

/-- What stands in a list stands inside it. -/
theorem mem_walkBody_of_mem {statement : Statement α} {statements : List (Statement α)}
    (member : statement ∈ statements) : statement ∈ Statement.walkBody statements :=
  mem_walkBody_of_mem_walk member (mem_walk_self statement)

theorem mem_walkBlocks_of_mem {statement : Statement α} {block : Block α} {blocks : List (Block α)}
    (isBlock : block ∈ blocks) (member : statement ∈ Statement.walkBody block.body) :
    statement ∈ Statement.walkBlocks blocks := by
  induction blocks with
  | nil => cases isBlock
  | cons head rest ih =>
      rcases List.mem_cons.mp isBlock with rfl | later
      · exact mem_walkBlocks_cons.mpr (.inl member)
      · exact mem_walkBlocks_cons.mpr (.inr (ih later))

theorem mem_walkBody_of_mem_subsFrom {first id : NodeId} {name : String} {body script : List (Statement α)}
    (declared : (id, name, body) ∈ subsFrom first script) {statement : Statement α}
    (member : statement ∈ Statement.walkBody body) : statement ∈ Statement.walkBody script := by
  fun_induction subsFrom first script with
  | case1 => cases declared
  | case2 first note other inner rest ih =>
      rcases List.mem_cons.mp declared with same | later
      · cases same
        exact List.mem_append_left _ (List.mem_cons_of_mem _ member)
      · exact List.mem_append_right _ (ih later)
  | case3 first other rest _ ih => exact List.mem_append_right _ (ih declared)

/-- What stands inside a body of the script stands in the script. -/
theorem mem_walkBody_of_mem_bodiesOf {root : NodeId} {body script : List (Statement α)}
    (listed : (root, body) ∈ bodiesOf script) {statement : Statement α}
    (member : statement ∈ Statement.walkBody body) : statement ∈ Statement.walkBody script := by
  rcases List.mem_cons.mp listed with same | declared
  · cases same
    exact mem_walkBody_of_mem_mains member
  · obtain ⟨⟨id, name, inner⟩, isSub, same⟩ := List.mem_map.mp declared
    cases same
    exact mem_walkBody_of_mem_subsFrom isSub member

/-- The nodes from which bodies are laid out are numbered from the entry on. -/
theorem map_fst_bodiesOf (script : List (Statement α)) :
    (bodiesOf script).map Prod.fst = List.range' Graph.entry ((subsOf script).length + 1) := by
  rw [bodiesOf, List.map_cons, List.map_map, List.range'_succ, subsOf, ← map_fst_subsFrom]
  rfl

/-- No two bodies start at the same node. -/
theorem nodup_roots (script : List (Statement α)) : ((bodiesOf script).map Prod.fst).Nodup := by
  rw [map_fst_bodiesOf]
  exact List.nodup_range'

theorem mem_roots_iff {script : List (Statement α)} {root : Nat} :
    root ∈ (bodiesOf script).map Prod.fst ↔ Graph.entry ≤ root ∧ root < Graph.entry + 1 + (subsOf script).length := by
  rw [map_fst_bodiesOf, List.mem_range'_1, Nat.add_right_comm, Nat.add_assoc]

end Script

namespace Builder

open Script

/-- The declarations of a script leave the statements behind the entry and the bodies of the subs. -/
theorem Declared.bodies {script : List (Statement Pos)} {declared : Builder} (facts : Declared script start declared) :
    (Graph.entry, mains script) :: declared.pending = bodiesOf script := by
  rw [facts.pending]
  rfl

theorem Declared.scope {script : List (Statement Pos)} {declared : Builder} (facts : Declared script start declared) :
    declared.scope = scopeOf script := by
  rw [Builder.scope, facts.groups, facts.subs]
  simp only [start, List.append_nil]
  rfl

theorem Declared.roots {script : List (Statement Pos)} {declared : Builder} (facts : Declared script start declared)
    (root : NodeId) :
    root ∈ (bodiesOf script).map Prod.fst ↔ Graph.entry ≤ root ∧ root < declared.graph.nextId := by
  have next : declared.graph.nextId = Graph.entry + 1 + (subsOf script).length := facts.nextId
  rw [mem_roots_iff, next]

/-- After the declarations of a script its bodies start at empty nodes. -/
theorem Declared.empty {script : List (Statement Pos)} {declared : Builder} (facts : Declared script start declared)
    {root : NodeId} (member : root ∈ (bodiesOf script).map Prod.fst) :
    declared.graph.get? root = some ⟨.data .empty, []⟩ := by
  obtain ⟨low, high⟩ := (facts.roots root).mp member
  by_cases isEntry : root = Graph.entry
  · subst isEntry
    rw [facts.older Graph.entry (Nat.lt_succ_self _), start, Graph.get?_insert_self]
  · exact facts.newer root (Nat.lt_of_le_of_ne low fun same => isEntry same.symm) high

/-- After the declarations of a script nothing else is stored. -/
theorem Declared.mem_roots {script : List (Statement Pos)} {declared : Builder} (facts : Declared script start declared)
    {id : NodeId} {node : Node} (found : declared.graph.get? id = some node) :
    id ∈ (bodiesOf script).map Prod.fst := by
  refine (facts.roots id).mpr ⟨Nat.le_of_not_lt fun below => ?_, facts.bounded bounded_start id node found⟩
  rw [facts.older id (Nat.lt_succ_of_lt below), start, Graph.get?_insert_of_ne (Nat.ne_of_gt below),
    Graph.get?_empty] at found
  cases found

/-- After the declarations of a script its bodies are ready. -/
theorem Declared.ready {script : List (Statement Pos)} {declared : Builder} (facts : Declared script start declared)
    (forks : ∀ root body, (root, body) ∈ bodiesOf script → Forks (Statement.walkBody body)) :
    Ready (bodiesOf script) declared :=
  ⟨facts.bounded bounded_start, nodup_roots script, fun _ => facts.empty, forks⟩

/-- Construction lays the script out. -/
theorem laidOut_of_rawGraph {script : List (Statement Pos)} {graph : Graph}
    (built : rawGraph script = .ok graph) (forks : Forks (Statement.walkBody script)) :
    LaidOut script graph := by
  unfold rawGraph at built
  split at built
  · rename_i after runs
    cases built
    obtain ⟨others, declared, declares, adds⟩ := runs_bind_iff.mp runs
    obtain ⟨rfl, facts⟩ := runs_declare declares
    have next : declared.graph.nextId = Graph.entry + 1 + (subsOf script).length := facts.nextId
    have ready := facts.ready fun root body listed note blocks member =>
      forks note blocks (mem_walkBody_of_mem_bodiesOf listed member)
    have lays := laysBodies_addScript (facts.bodies.symm ▸ ready) adds
    rw [facts.bodies] at lays
    refine ⟨?_, ?_⟩
    · have layouts := lays.lays after.graph (fun _ _ _ => rfl) (fun _ _ => rfl)
      rwa [facts.scope, next] at layouts
    · intro id node found
      refine ⟨Nat.le_of_not_lt fun below => ?_, lays.bounded id node found⟩
      have notRoot : id ∉ (bodiesOf script).map Prod.fst :=
        fun member => Nat.lt_irrefl _ (Nat.lt_of_lt_of_le below ((facts.roots id).mp member).1)
      have old : id < declared.graph.nextId := by
        rw [next]
        exact Nat.lt_of_lt_of_le below (Nat.le_trans (Nat.le_succ _) (Nat.le_add_right _ _))
      rw [lays.others id old notRoot] at found
      exact notRoot (facts.mem_roots found)
  · cases built

end Builder

end MissionGraph
