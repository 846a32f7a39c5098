import MissionGraph.Proofs.Build.Program
import MissionGraph.Proofs.Graph.Paths

/-!
# What is built hangs together

Statements are added behind a cursor. No link is lost, every new node lies behind the cursor, and so do the subs that
the statements call. So every node of a script lies behind the entry or behind the node of a sub. Nothing is assumed
of the script but that its graph can be built.
-/

namespace MissionGraph.Builder

open Relation
open Mission (Data)
open Script (Pos Statement bodiesOf callsIn scopeOf)

/-- What a construction behind a cursor leads to, if it makes the given calls. -/
structure Attached (cursor : NodeId) (calls : List (Pos × String)) (before after : Builder) : Prop where
  subs : after.subs = before.subs
  kept : ∀ parent child, before.graph.Child parent child → after.graph.Child parent child
  new : ∀ id ∈ after.graph.ids, id ∈ before.graph.ids ∨ after.graph.Reaches cursor id
  called : ∀ place name, (place, name) ∈ calls →
    ∃ target, before.subs.lookup name = some target ∧ after.graph.Reaches cursor target

variable {before middle after : Builder} {cursor next last : NodeId} {node : Node} {calls others : List (Pos × String)}

namespace Attached

theorem reaches (attached : Attached next calls before after) {first last : NodeId}
    (path : before.graph.Reaches first last) : after.graph.Reaches first last :=
  ReflTransGen.mono attached.kept _ _ path

theorem refl (cursor : NodeId) (builder : Builder) : Attached cursor [] builder builder where
  subs := rfl
  kept := fun _ _ edge => edge
  new := fun _ stored => .inl stored
  called := fun _ _ member => absurd member List.not_mem_nil

theorem trans (first : Attached cursor calls before middle) (path : middle.graph.Reaches cursor next)
    (second : Attached next others middle after) : Attached cursor (calls ++ others) before after where
  subs := second.subs.trans first.subs
  kept := fun parent child edge => second.kept parent child (first.kept parent child edge)
  new := by
    intro id stored
    rcases second.new id stored with earlier | reached
    · exact (first.new id earlier).imp_right second.reaches
    · exact .inr ((second.reaches path).trans reached)
  called := by
    intro place name member
    rcases List.mem_append.mp member with inFirst | inSecond
    · obtain ⟨target, known, reached⟩ := first.called place name inFirst
      exact ⟨target, known, second.reaches reached⟩
    · obtain ⟨target, known, reached⟩ := second.called place name inSecond
      exact ⟨target, first.subs ▸ known, (second.reaches path).trans reached⟩

/-- A change of one node that keeps its children. -/
theorem modify (cursor : NodeId) (before : Builder) {change : Node → Node}
    (keeps : ∀ node, ∀ child ∈ node.children, child ∈ (change node).children) :
    Attached cursor [] before (before.onGraph (·.modify cursor change)) where
  subs := rfl
  kept := by
    intro parent child edge
    obtain ⟨node, found, member⟩ := Graph.child_iff.mp edge
    refine Graph.child_iff.mpr ?_
    rw [graph_onGraph, Graph.get?_modify, found]
    split
    · exact ⟨change node, rfl, keeps node child member⟩
    · exact ⟨node, rfl, member⟩
  new := by
    intro id stored
    obtain ⟨node, found⟩ := Graph.mem_ids_iff.mp stored
    rw [graph_onGraph, Graph.get?_modify] at found
    refine .inl (Graph.mem_ids_iff.mpr ?_)
    split at found
    · obtain ⟨old, foundOld, _⟩ := Option.map_eq_some_iff.mp found
      exact ⟨old, foundOld⟩
    · exact ⟨node, found⟩
  called := fun _ _ member => absurd member List.not_mem_nil

theorem modifyData (cursor : NodeId) (before : Builder) (change : Data → Data) :
    Attached cursor [] before (before.onGraph (·.modifyData cursor change)) := by
  refine modify cursor before fun node child member => ?_
  obtain ⟨content, children⟩ := node
  cases content <;> exact member

theorem link (before : Builder) (cursor target : NodeId) :
    Attached cursor [] before (before.onGraph (·.link cursor target)) :=
  modify cursor before fun _ _ member => List.mem_append_left _ member

/-- A new node is a child of the node under the cursor. -/
theorem child_grow (bounded : before.graph.Bounded) (found : before.graph.get? cursor = some node) (content : Content) :
    (before.graph.grow cursor content).Child cursor before.graph.nextId :=
  Graph.child_of_get? (Graph.get?_grow_parent bounded found content)
    (List.mem_append_right _ (List.mem_singleton_self _))

theorem grow (bounded : before.graph.Bounded) (found : before.graph.get? cursor = some node) (content : Content) :
    Attached cursor [] before (before.onGraph (·.grow cursor content)) where
  subs := rfl
  kept := by
    intro parent child edge
    obtain ⟨old, foundOld, member⟩ := Graph.child_iff.mp edge
    refine Graph.child_iff.mpr ?_
    rw [graph_onGraph, Graph.get?_grow (bounded.ne_nextId found), if_neg (bounded.ne_nextId foundOld), foundOld]
    split
    · exact ⟨_, rfl, List.mem_append_left _ member⟩
    · exact ⟨old, rfl, member⟩
  new := by
    intro id stored
    by_cases isNew : id = before.graph.nextId
    · subst isNew
      exact .inr (.single (child_grow bounded found content))
    · obtain ⟨later, foundLater⟩ := Graph.mem_ids_iff.mp stored
      rw [graph_onGraph, Graph.get?_grow (bounded.ne_nextId found), if_neg isNew] at foundLater
      refine .inl (Graph.mem_ids_iff.mpr ?_)
      split at foundLater
      · obtain ⟨old, foundOld, _⟩ := Option.map_eq_some_iff.mp foundLater
        exact ⟨old, foundOld⟩
      · exact ⟨later, foundLater⟩
  called := fun _ _ member => absurd member List.not_mem_nil

end Attached

/-- Moves behind a cursor attach what they build, and the cursor they end at lies behind the first one. -/
theorem Moves.attached (moves : Moves cursor calls before last after) (bounded : before.graph.Bounded)
    (stored : ∃ node, before.graph.get? cursor = some node) :
    Attached cursor calls before after ∧ after.graph.Reaches cursor last := by
  induction moves with
  | stay cursor builder => exact ⟨.refl cursor builder, .refl⟩
  | change cursor before change => exact ⟨.modifyData cursor before change, .refl⟩
  | grow found content => exact ⟨.grow bounded found content, .single (Attached.child_grow bounded found content)⟩
  | @call cursor target before node name pos found known =>
      have linked := Attached.link before cursor target
      refine ⟨⟨linked.subs, linked.kept, linked.new, fun place other member => ?_⟩, .refl⟩
      cases List.mem_singleton.mp member
      refine ⟨target, known, .single (Graph.child_iff.mpr ?_)⟩
      rw [graph_onGraph, Graph.get?_link, if_pos rfl, found]
      exact ⟨_, rfl, List.mem_append_right _ (List.mem_singleton_self target)⟩
  | andThen first second ihFirst ihSecond =>
      obtain ⟨frame, _, storedNext⟩ := first.frame bounded stored
      obtain ⟨attached, reached⟩ := ihFirst bounded stored
      obtain ⟨attachedRest, reachedRest⟩ := ihSecond frame.bounded storedNext
      exact ⟨attached.trans reached attachedRest, (attachedRest.reaches reached).trans reachedRest⟩
  | back moves ih => exact ⟨(ih bounded stored).1, .refl⟩

/-! ## Whole scripts -/

/-- What adding bodies leads to: every new node lies behind the start of a body, and so do the subs that it calls. -/
structure AttachedBodies (bodies : List (NodeId × List (Statement Pos))) (before after : Builder) : Prop where
  kept : ∀ parent child, before.graph.Child parent child → after.graph.Child parent child
  new : ∀ id ∈ after.graph.ids, id ∈ before.graph.ids ∨ ∃ root ∈ bodies.map Prod.fst, after.graph.Reaches root id
  called : ∀ root body, (root, body) ∈ bodies → ∀ place name, (place, name) ∈ callsIn body →
    ∃ target, before.subs.lookup name = some target ∧ after.graph.Reaches root target

theorem AttachedBodies.cons {root : NodeId} {body : List (Statement Pos)}
    {bodies : List (NodeId × List (Statement Pos))} (first : Attached root (callsIn body) before middle)
    (rest : AttachedBodies bodies middle after) : AttachedBodies ((root, body) :: bodies) before after where
  kept := fun parent child edge => rest.kept parent child (first.kept parent child edge)
  new := by
    intro id stored
    rcases rest.new id stored with earlier | ⟨other, listed, reached⟩
    · refine (first.new id earlier).imp_right fun reached => ?_
      exact ⟨root, List.mem_cons_self, ReflTransGen.mono rest.kept _ _ reached⟩
    · exact .inr ⟨other, List.mem_cons_of_mem _ listed, reached⟩
  called := by
    intro other inner listed place name member
    rcases List.mem_cons.mp listed with same | later
    · cases same
      obtain ⟨target, known, reached⟩ := first.called place name member
      exact ⟨target, known, ReflTransGen.mono rest.kept _ _ reached⟩
    · obtain ⟨target, known, reached⟩ := rest.called other inner later place name member
      exact ⟨target, first.subs ▸ known, reached⟩

theorem attachedBodies_addBodies {bodies : List (NodeId × List (Statement Pos))} (bounded : before.graph.Bounded)
    (stored : ∀ root ∈ bodies.map Prod.fst, ∃ node, before.graph.get? root = some node)
    (runs : Runs (addBodies bodies) before () after) : AttachedBodies bodies before after := by
  induction bodies generalizing before with
  | nil =>
      obtain ⟨_, rfl⟩ := runs_pure_iff.mp runs
      exact ⟨fun _ _ edge => edge, fun _ listed => .inl listed, fun _ _ listed => absurd listed List.not_mem_nil⟩
  | cons first rest ih =>
      obtain ⟨root, body⟩ := first
      obtain ⟨last, middle, added, following⟩ := runs_bind_iff.mp runs
      have storedRoot := stored root List.mem_cons_self
      have moves := moving_addSequence _ _ _ _ _ bounded storedRoot added
      obtain ⟨frame, _, _⟩ := moves.frame bounded storedRoot
      refine .cons (moves.attached bounded storedRoot).1 (ih frame.bounded ?_ following)
      intro other member
      obtain ⟨node, found⟩ := stored other (List.mem_cons_of_mem _ member)
      exact frame.stored other node found

theorem attachedBodies_addScript {statements : List (Statement Pos)} (bounded : before.graph.Bounded)
    (stored : ∀ root ∈ ((Graph.entry, statements) :: before.pending).map Prod.fst,
      ∃ node, before.graph.get? root = some node)
    (runs : Runs (addScript statements) before () after) :
    AttachedBodies ((Graph.entry, statements) :: before.pending) before after := by
  obtain ⟨last, middle, added, following⟩ := runs_bind_iff.mp runs
  obtain ⟨_, built, got, clearing⟩ := runs_bind_iff.mp following
  obtain ⟨rfl, rfl⟩ := runs_get_iff.mp got
  obtain ⟨_, _, cleared, adding⟩ := runs_bind_iff.mp clearing
  obtain rfl := runs_modify_iff.mp cleared
  have storedEntry := stored Graph.entry List.mem_cons_self
  have moves := moving_addSequence _ _ _ _ _ bounded storedEntry added
  obtain ⟨frame, _, _⟩ := moves.frame bounded storedEntry
  rw [frame.pending] at adding
  have rest : AttachedBodies before.pending { built with pending := [] } after := by
    refine attachedBodies_addBodies frame.bounded (fun root member => ?_) adding
    obtain ⟨node, found⟩ := stored root (List.mem_cons_of_mem _ member)
    exact frame.stored root node found
  exact .cons (moves.attached bounded storedEntry).1 ⟨rest.kept, rest.new, rest.called⟩

/-- Every node of a script lies behind the start of a body, and every body leads to the subs that it calls. -/
theorem attached_of_rawGraph {script : List (Statement Pos)} {raw : Graph} (built : rawGraph script = .ok raw) :
    (∀ id node, raw.get? id = some node → ∃ root ∈ (bodiesOf script).map Prod.fst, raw.Reaches root id) ∧
      ∀ root body, (root, body) ∈ bodiesOf script → ∀ place name, (place, name) ∈ callsIn body →
        ∃ target, (scopeOf script).subs.lookup name = some target ∧ raw.Reaches root target := by
  unfold rawGraph at built
  split at built
  · rename_i after runs
    cases built
    obtain ⟨others, declared, declares, adds⟩ := runs_bind_iff.mp runs
    obtain ⟨rfl, facts⟩ := runs_declare declares
    have bounded := facts.bounded bounded_start
    have attached := attachedBodies_addScript bounded (facts.bodies.symm ▸ fun _ member => ⟨_, facts.empty member⟩) adds
    rw [facts.bodies] at attached
    refine ⟨fun id node found => ?_, fun root body listed place name member => ?_⟩
    · rcases attached.new id (Graph.mem_ids_iff.mpr ⟨node, found⟩) with earlier | reached
      · obtain ⟨_, foundBefore⟩ := Graph.mem_ids_iff.mp earlier
        exact ⟨id, facts.mem_roots foundBefore, .refl⟩
      · exact reached
    · obtain ⟨target, known, reached⟩ := attached.called root body listed place name member
      exact ⟨target, facts.scope ▸ known, reached⟩
  · cases built

end MissionGraph.Builder
