import Mathlib.Data.List.Nodup
import MissionGraph.Proofs.Build.Places
import MissionGraph.Proofs.Build.Progress

/-!
# What the entry reaches

Every node of a body lies behind the node where the body starts, and so do the starts of the subs that the
body calls. Nothing else leads into a body. So the entry reaches exactly the nodes of the statements that
declare nothing and of the subs that are called from them, directly or through other subs.
-/

namespace MissionGraph

open Relation
open Script (Block Calls Pos Program Statement bodiesOf declaredSub? mains scopeOf subsOf)

/-! ## Called subs -/

namespace Script

variable {script : Program} {name : String}

/-- The sub is called by the statements that declare nothing, directly or through other subs. -/
def Called (script : Program) (name : String) : Prop :=
  ∃ place first, .call place first ∈ Statement.walkBody (mains script) ∧ ReflTransGen (Calls script) first name

theorem mem_callsIn_iff {statements : List (Statement Pos)} {name : String} :
    name ∈ (callsIn statements).map Prod.snd ↔ ∃ place, .call place name ∈ Statement.walkBody statements := by
  rw [List.mem_map]
  constructor
  · rintro ⟨⟨place, _⟩, member, rfl⟩
    exact ⟨place, call_mem_callsIn_iff.mp member⟩
  · rintro ⟨place, inside⟩
    exact ⟨(place, name), call_mem_callsIn_iff.mpr inside, rfl⟩

/-- The subs that are called in the bodies of the subs with a name. -/
def calledBy (script : Program) (caller : String) : List String :=
  script.flatMap fun
    | .sub _ name body => if name = caller then (callsIn body).map Prod.snd else []
    | _ => []

theorem mem_calledBy_iff {caller : String} : name ∈ calledBy script caller ↔ Calls script caller name := by
  rw [calledBy, List.mem_flatMap]
  constructor
  · rintro ⟨statement, listed, member⟩
    cases statement with
    | sub pos declared body =>
        dsimp only at member
        split at member
        · rename_i same
          obtain ⟨place, inside⟩ := mem_callsIn_iff.mp member
          exact ⟨pos, body, place, same ▸ listed, inside⟩
        · cases member
    | _ => cases member
  · rintro ⟨pos, body, place, listed, inside⟩
    refine ⟨_, listed, ?_⟩
    dsimp only
    rw [if_pos rfl]
    exact mem_callsIn_iff.mpr ⟨place, inside⟩

/-- A search from the statements that declare nothing meets the called subs. -/
theorem called_iff_mem_gather :
    name ∈ Search.gather (calledBy script) ((callsIn script).map Prod.snd).eraseDups
      ((callsIn (mains script)).map Prod.snd) ↔ Called script name := by
  rw [Search.mem_gather_iff _ _ _ (Search.nodup_eraseDups _)]
  have next : (fun caller called => called ∈ calledBy script caller) = Calls script := by
    funext caller called
    exact propext mem_calledBy_iff
  constructor
  · rintro ⟨first, listed, path⟩
    obtain ⟨place, inside⟩ := mem_callsIn_iff.mp listed
    exact ⟨place, first, inside, next ▸ path.reflTransGen⟩
  · rintro ⟨place, first, inside, path⟩
    refine ⟨first, mem_callsIn_iff.mpr ⟨place, inside⟩, ?_⟩
    -- what is called on the way is called somewhere in the script
    have along (start : String) (path : ReflTransGen (Calls script) start name)
        (listed : start ∈ ((callsIn script).map Prod.snd).eraseDups) :
        Search.PathWithin (calledBy script) (· ∈ ((callsIn script).map Prod.snd).eraseDups) start name := by
      induction path using ReflTransGen.head_induction_on with
      | refl => exact .here listed
      | head edge _ ih =>
          refine .step listed (mem_calledBy_iff.mpr edge) (ih ?_)
          obtain ⟨pos, body, place, declared, called⟩ := edge
          rw [List.mem_eraseDups]
          exact mem_callsIn_iff.mpr ⟨place, mem_walkBody_of_mem_walk declared (List.mem_cons_of_mem _ called)⟩
    refine along first path ?_
    rw [List.mem_eraseDups]
    exact mem_callsIn_iff.mpr ⟨place, mem_walkBody_of_mem_mains inside⟩

instance (script : Program) (name : String) : Decidable (Called script name) :=
  decidable_of_iff _ called_iff_mem_gather

end Script

/-! ## Inside a body -/

variable {α : Type} {graph : Graph} {scope : Scope} {part : Part α} {first last : Nat}

/-- The number from which a part is walked through: that of the node before it, or its first number. -/
def Part.start (first : Nat) : Part α → NodeId
  | .body cursor _ _ => cursor
  | _ => first

/-- The number lies between the two, or it is that of a sub that one of the statements calls. -/
def Targets (scope : Scope) (inside : List (Statement α)) (first last id : Nat) : Prop :=
  (first ≤ id ∧ id < last) ∨ ∃ note name, .call note name ∈ inside ∧ scope.subs.lookup name = some id

namespace Targets

variable {statement : Statement α} {inside statements : List (Statement α)} {id : Nat}

theorem mono {other : List (Statement α)} (target : Targets scope inside first last id)
    (calls : ∀ note name, .call note name ∈ inside → .call note name ∈ other) : Targets scope other first last id := by
  refine target.imp_right ?_
  rintro ⟨note, name, member, known⟩
  exact ⟨note, name, calls note name member, known⟩

/-- A statement with nothing inside it that is no call can be left out. -/
theorem tail (target : Targets scope (Statement.walkBody (statement :: statements)) first last id)
    (leaf : statement.walk = [statement]) (notCall : ∀ note name, .call note name ≠ statement) :
    Targets scope (Statement.walkBody statements) first last id := by
  refine target.mono fun note name member => (mem_walkBody_cons.mp member).resolve_left fun here => ?_
  rw [leaf, List.mem_singleton] at here
  exact notCall note name here

/-- The target is the first number, or it lies behind it. -/
theorem behind (target : Targets scope inside first last id) :
    id = first ∨ Targets scope inside (first + 1) last id := by
  rcases target with ⟨low, high⟩ | called
  · rcases Nat.eq_or_lt_of_le low with same | later
    · exact .inl same.symm
    · exact .inr (.inl ⟨later, high⟩)
  · exact .inr (.inr called)

theorem onlyChoice {note : α} {blocks : List (Block α)}
    (target : Targets scope (Statement.walkBody [.choice note blocks]) first last id) :
    Targets scope (Statement.walkBlocks blocks) first last id := by
  refine target.mono fun place name member => ?_
  rcases mem_walkBody_cons.mp member with here | nothing
  · exact (List.mem_cons.mp here).resolve_left fun same => by cases same
  · cases nothing

end Targets

/-- The node before a body keeps the children that it had. -/
theorem Layout.child_of_mem {cursor child : NodeId} {node : Node} {statements : List (Statement α)}
    (layout : Layout graph scope (.body cursor node statements) first last) (member : child ∈ node.children) :
    graph.Child cursor child := by
  have kept {node : Node} {next : NodeId} (found : graph.get? cursor = some (node.leadingTo next))
      (member : child ∈ node.children) : graph.Child cursor child :=
    Graph.child_of_get? found (Node.mem_children_leadingTo.mpr (.inl member))
  induction statements generalizing node with
  | nil =>
      cases layout with
      | done found => exact Graph.child_of_get? found member
  | cons statement rest ih =>
      cases layout with
      | fieldHere _ _ later => exact ih later member
      | fieldBehind _ _ found _ => exact kept found member
      | missingHere later => exact ih later member
      | missingBehind _ found _ => exact kept found member
      | doc found _ => exact kept found member
      | choiceBehind found _ => exact kept found member
      | call _ later => exact ih later (Node.mem_children_leadingTo.mpr (.inl member))

/-- The start of a part reaches all its nodes and all subs that are called in it. -/
theorem Layout.reaches (layout : Layout graph scope part first last) {id : Nat}
    (target : Targets scope part.inside first last id) : graph.Reaches (part.start first) id := by
  have step {cursor next : NodeId} {node : Node} (found : graph.get? cursor = some (node.leadingTo next)) :
      graph.Child cursor next :=
    Graph.child_of_get? found (Node.mem_children_leadingTo.mpr (.inr rfl))
  have fromNew {inside : List (Statement α)} {first last : Nat} (target : Targets scope inside first last id)
      (later : Targets scope inside (first + 1) last id → graph.Reaches first id) : graph.Reaches first id := by
    rcases target.behind with rfl | behind
    · exact .refl
    · exact later behind
  induction layout with
  | done _ =>
      rcases target with ⟨low, high⟩ | ⟨_, _, nothing, _⟩
      · exact absurd high (Nat.not_lt.mpr low)
      · cases nothing
  | fieldHere _ _ _ ih => exact ih (target.tail rfl fun _ _ same => by cases same)
  | fieldBehind _ _ found _ ih =>
      exact .head (step found) (fromNew (target.tail rfl fun _ _ same => by cases same) ih)
  | missingHere _ ih => exact ih (target.tail rfl fun _ _ same => by cases same)
  | missingBehind _ found _ ih =>
      exact .head (step found) (fromNew (target.tail rfl fun _ _ same => by cases same) ih)
  | doc found _ ih =>
      exact .head (step found) (fromNew (target.tail rfl fun _ _ same => by cases same) ih)
  | call known later ih =>
      rcases target with inRange | ⟨note, name, member, found⟩
      · exact ih (.inl inRange)
      · rcases mem_walkBody_cons.mp member with here | inRest
        · cases List.mem_singleton.mp here
          cases known.symm.trans found
          exact .single (later.child_of_mem (Node.mem_children_leadingTo.mpr (.inr rfl)))
        · exact ih (.inr ⟨note, name, inRest, found⟩)
  | choiceBehind found _ ih => exact .head (step found) (ih target.onlyChoice)
  | @choice nickname block blocks first middle last _ found inner later ihBlock ihRest =>
      have child {next : NodeId} (listed : next ∈ [first + 1, middle]) : graph.Child first next :=
        Graph.child_of_get? found listed
      have inBlock (target : Targets scope (Statement.walkBody block.body) (first + 1) middle id) :
          graph.Reaches first id := .head (child List.mem_cons_self) (ihBlock target)
      have inRest (target : Targets scope (Statement.walkBlocks blocks) middle last id) : graph.Reaches first id :=
        .head (child (List.mem_cons_of_mem _ List.mem_cons_self)) (ihRest target)
      rcases target with ⟨low, high⟩ | ⟨note, name, member, known⟩
      · rcases Nat.eq_or_lt_of_le low with rfl | behind
        · exact .refl
        · by_cases early : id < middle
          · exact inBlock (.inl ⟨behind, early⟩)
          · exact inRest (.inl ⟨Nat.le_of_not_lt early, high⟩)
      · rcases mem_walkBlocks_cons.mp member with here | there
        · exact inBlock (.inr ⟨note, name, here, known⟩)
        · exact inRest (.inr ⟨note, name, there, known⟩)
  | lastBlock _ ih =>
      refine ih (target.mono fun note name member => ?_)
      exact (mem_walkBlocks_cons.mp member).resolve_right fun nothing => by cases nothing
  | laterBlocks _ ih => exact ih target
  | groupBlock _ _ ih => exact fromNew target ih
  | innerChoice _ _ ih => exact ih target.onlyChoice
  | plainBlock _ _ _ ih => exact fromNew target ih

/-! ## Several bodies -/

/-- Bodies are laid out one after the other, and every number belongs to the start of its body. -/
inductive Owned (graph : Graph) (scope : Scope) (owner : Nat → NodeId) :
    List (NodeId × List (Statement α)) → Nat → Nat → Prop where
  | nil {first : Nat} : Owned graph scope owner [] first first
  | cons {root : NodeId} {body : List (Statement α)} {bodies : List (NodeId × List (Statement α))}
      {first middle last : Nat} (head : Layout graph scope (.body root ⟨.data .empty, []⟩ body) first middle)
      (own : ∀ id, first ≤ id → id < middle → owner id = root) (tail : Owned graph scope owner bodies middle last) :
      Owned graph scope owner ((root, body) :: bodies) first last

theorem Owned.layouts {owner : Nat → NodeId} {bodies : List (NodeId × List (Statement α))}
    (owned : Owned graph scope owner bodies first last) : Layouts graph scope bodies first last := by
  induction owned with
  | nil => exact .nil
  | cons head _ _ ih => exact .cons head ih

theorem Owned.congr {owner other : Nat → NodeId} {bodies : List (NodeId × List (Statement α))}
    (owned : Owned graph scope owner bodies first last) (same : ∀ id, first ≤ id → other id = owner id) :
    Owned graph scope other bodies first last := by
  induction owned with
  | nil => exact .nil
  | cons head own _ ih =>
      refine .cons head (fun id low high => (same id low).trans (own id low high)) (ih fun id low => ?_)
      exact same id (Nat.le_trans head.le.1 low)

/-- The numbers of bodies that are laid out belong to them. -/
theorem Layouts.exists_owner {bodies : List (NodeId × List (Statement α))}
    (layouts : Layouts graph scope bodies first last) :
    ∃ owner, (∀ id, id < first → owner id = id) ∧ Owned graph scope owner bodies first last := by
  induction layouts with
  | nil => exact ⟨id, fun _ _ => rfl, .nil⟩
  | @cons root body bodies first middle last head tail ih =>
      obtain ⟨owner, below, owned⟩ := ih
      refine ⟨fun id => if first ≤ id ∧ id < middle then root else owner id, fun id early => ?_, ?_⟩
      · have outside : ¬ (first ≤ id ∧ id < middle) := fun inside => Nat.not_le.mpr early inside.1
        exact (if_neg outside).trans (below id (Nat.lt_of_lt_of_le early head.le.1))
      · refine .cons head (fun id low high => if_pos ⟨low, high⟩) (owned.congr fun id low => ?_)
        exact if_neg fun inside => Nat.not_le.mpr inside.2 low

/-- The child belongs to the same body, or it is the start of a sub that the body calls. -/
def Onward (scope : Scope) (owner : Nat → NodeId) (bodies : List (NodeId × List (Statement α)))
    (parent child : Nat) : Prop :=
  owner child = owner parent ∨ ∃ body note name, (owner parent, body) ∈ bodies ∧
    .call note name ∈ Statement.walkBody body ∧ scope.subs.lookup name = some child

namespace Owned

variable {owner : Nat → NodeId} {bodies : List (NodeId × List (Statement α))}

theorem onward (owned : Owned graph scope owner bodies first last)
    (below : ∀ root ∈ bodies.map Prod.fst, root < first) (starts : ∀ root ∈ bodies.map Prod.fst, owner root = root)
    {parent child : Nat} (used : (first ≤ parent ∧ parent < last) ∨ parent ∈ bodies.map Prod.fst)
    (edge : graph.Child parent child) : Onward scope owner bodies parent child := by
  induction owned with
  | nil =>
      rcases used with ⟨low, high⟩ | member
      · exact absurd high (Nat.not_lt.mpr low)
      · cases member
  | @cons root body bodies first middle last head own tail ih =>
      have belowRoot := below root List.mem_cons_self
      have inHead (covered : Covers root first middle parent) : Onward scope owner ((root, body) :: bodies) parent child := by
        have owns : owner parent = root := by
          rcases covered with ⟨low, high⟩ | rfl
          · exact own parent low high
          · exact starts parent List.mem_cons_self
        rw [Onward, owns]
        cases head.leads (Part.behind_body belowRoot) (Part.owns_body_iff.mpr covered) edge with
        | ahead _ low high => exact .inl (own child low high)
        | called note name listed known => exact .inr ⟨body, note, name, List.mem_cons_self, listed, known⟩
        | earlier node here member =>
            cases here
            cases member
      have inTail (usedRest : (middle ≤ parent ∧ parent < last) ∨ parent ∈ bodies.map Prod.fst) :
          Onward scope owner ((root, body) :: bodies) parent child := by
        have later := ih (fun other member => ?_) (fun other member => starts other (List.mem_cons_of_mem _ member))
          usedRest
        · refine later.imp_right ?_
          rintro ⟨inner, note, name, listed, called, known⟩
          exact ⟨inner, note, name, List.mem_cons_of_mem _ listed, called, known⟩
        · exact Nat.lt_of_lt_of_le (below other (List.mem_cons_of_mem _ member)) head.le.1
      rcases used with ⟨low, high⟩ | member
      · by_cases inFirst : parent < middle
        · exact inHead (.inl ⟨low, inFirst⟩)
        · exact inTail (.inl ⟨Nat.le_of_not_lt inFirst, high⟩)
      · rcases List.mem_cons.mp member with same | later
        · exact inHead (.inr same)
        · exact inTail (.inr later)

/-- The start of a body reaches the numbers that belong to it. -/
theorem reaches (owned : Owned graph scope owner bodies first last) {id : Nat} (low : first ≤ id) (high : id < last) :
    owner id ∈ bodies.map Prod.fst ∧ graph.Reaches (owner id) id := by
  induction owned with
  | nil => exact absurd high (Nat.not_lt.mpr low)
  | @cons root body bodies first middle last head own tail ih =>
      by_cases inFirst : id < middle
      · rw [own id low inFirst]
        exact ⟨List.mem_cons_self, head.reaches (.inl ⟨low, inFirst⟩)⟩
      · obtain ⟨listed, reached⟩ := ih (Nat.le_of_not_lt inFirst) high
        exact ⟨List.mem_cons_of_mem _ listed, reached⟩

end Owned

/-! ## The bodies of a script -/

open Script (Called)

/-- The body from the number on is that of the statements that declare nothing, or that of a called sub. -/
def Script.Live (script : Program) (root : NodeId) : Prop :=
  root = Graph.entry ∨ ∃ name body, (root, name, body) ∈ subsOf script ∧ Called script name

theorem Script.eq_of_mem_bodiesOf {script one two : Program} {root : NodeId} (first : (root, one) ∈ bodiesOf script)
    (second : (root, two) ∈ bodiesOf script) : one = two := by
  exact congrArg Prod.snd (List.inj_on_of_nodup_map (nodup_roots script) first second rfl)

theorem Script.lookup_of_mem_subsOf {script body : Program} (once : (script.filterMap declaredSub?).Nodup) {id : NodeId}
    {name : String} (declared : (id, name, body) ∈ subsOf script) : (scopeOf script).subs.lookup name = some id := by
  refine lookup_reverse_of_mem ?_ (List.mem_map.mpr ⟨_, declared, rfl⟩)
  rw [List.map_map]
  exact (map_name_subsFrom (Graph.entry + 1) script).symm ▸ once

/-- A live body makes the subs that it calls live. -/
theorem Script.Live.called {script body inner : Program} {root id : NodeId} {place : Pos} {name : String}
    (live : Live script root) (listed : (root, body) ∈ bodiesOf script) (calls : .call place name ∈ Statement.walkBody body)
    (declared : (id, name, inner) ∈ subsOf script) : Live script id := by
  refine .inr ⟨name, inner, declared, ?_⟩
  rcases live with rfl | ⟨caller, callerBody, isCaller, firstPlace, first, inMains, path⟩
  · rw [eq_of_mem_bodiesOf listed List.mem_cons_self] at calls
    exact ⟨place, name, calls, .refl⟩
  · rw [eq_of_mem_bodiesOf listed (mem_bodiesOf_of_mem_subsOf isCaller)] at calls
    obtain ⟨pos, member⟩ := exists_mem_of_mem_subsFrom isCaller
    exact ⟨firstPlace, first, inMains, path.tail ⟨pos, callerBody, place, member, calls⟩⟩

/-- The entry reaches the starts of all live bodies, if every body leads to the subs that it calls. -/
theorem Script.Live.reaches {script : Program} {raw : Graph}
    (onward : ∀ root body, (root, body) ∈ bodiesOf script → ∀ place name, .call place name ∈ Statement.walkBody body →
      ∀ id, (scopeOf script).subs.lookup name = some id → raw.Reaches root id)
    (once : (script.filterMap declaredSub?).Nodup) {root : NodeId} (live : Live script root) :
    raw.Reaches Graph.entry root := by
  rcases live with rfl | ⟨name, body, declared, place, first, inMains, path⟩
  · exact .refl
  · induction path generalizing root body with
    | refl => exact onward _ _ List.mem_cons_self place first inMains root (lookup_of_mem_subsOf once declared)
    | tail _ calls ih =>
        obtain ⟨pos, callerBody, inner, isSub, called⟩ := calls
        obtain ⟨id, isCaller⟩ := exists_mem_subsFrom isSub (Graph.entry + 1)
        exact (ih callerBody isCaller).trans (onward id callerBody (mem_bodiesOf_of_mem_subsOf isCaller) inner _ called
          root (lookup_of_mem_subsOf once declared))

namespace LaidOut

variable {script : Program} {raw : Graph}

/-- The start of a body reaches the subs that the body calls. -/
theorem reaches_called {body : Program} (laid : LaidOut script raw) {root id : NodeId} {place : Pos} {name : String}
    (listed : (root, body) ∈ bodiesOf script) (calls : .call place name ∈ Statement.walkBody body)
    (known : (scopeOf script).subs.lookup name = some id) : raw.Reaches root id := by
  obtain ⟨low, high, bodyAt⟩ := laid.bodyAt listed
  exact bodyAt.layout.reaches (.inr ⟨place, name, calls, known⟩)

/-- The entry reaches the starts of all live bodies. -/
theorem reaches_of_live (laid : LaidOut script raw) (once : (script.filterMap declaredSub?).Nodup) {root : NodeId}
    (live : Script.Live script root) : raw.Reaches Graph.entry root :=
  live.reaches (fun _ _ listed _ _ calls _ known => laid.reaches_called listed calls known) once

/-- Every stored number belongs to a body, and the entry reaches it if the body is live. -/
theorem exists_owner (laid : LaidOut script raw) (once : (script.filterMap declaredSub?).Nodup) :
    ∃ owner, (∀ root ∈ (bodiesOf script).map Prod.fst, owner root = root) ∧
      Owned raw (scopeOf script) owner (bodiesOf script) (Graph.entry + 1 + (subsOf script).length) raw.nextId ∧
      ∀ id, Graph.entry ≤ id → id < raw.nextId → (raw.Reaches Graph.entry id ↔ Script.Live script (owner id)) := by
  obtain ⟨owner, below, owned⟩ := laid.layouts.exists_owner
  have starts (root : NodeId) (listed : root ∈ (bodiesOf script).map Prod.fst) : owner root = root :=
    below root (root_lt listed).2
  refine ⟨owner, starts, owned, fun id low high => ⟨fun path => ?_, fun live => ?_⟩⟩
  · induction path with
    | refl => exact .inl (starts _ List.mem_cons_self)
    | @tail parent child _ edge ih =>
        obtain ⟨node, found, _⟩ := Graph.child_iff.mp edge
        obtain ⟨from_entry, to_next⟩ := laid.stored parent node found
        have live := ih from_entry to_next
        have used : (Graph.entry + 1 + (subsOf script).length ≤ parent ∧ parent < raw.nextId) ∨
            parent ∈ (bodiesOf script).map Prod.fst := by
          by_cases early : parent < Graph.entry + 1 + (subsOf script).length
          · exact .inr (Script.mem_roots_iff.mpr ⟨from_entry, early⟩)
          · exact .inl ⟨Nat.le_of_not_lt early, to_next⟩
        rcases owned.onward (fun root listed => (root_lt listed).2) starts used edge with
          same | ⟨body, place, name, listed, calls, known⟩
        · rwa [same]
        · obtain ⟨inner, declared⟩ := Script.mem_subsOf_of_lookup known
          rw [starts child (List.mem_map.mpr ⟨_, Script.mem_bodiesOf_of_mem_subsOf declared, rfl⟩)]
          exact live.called listed calls declared
  · have reached := laid.reaches_of_live once live
    by_cases early : id < Graph.entry + 1 + (subsOf script).length
    · rwa [starts id (Script.mem_roots_iff.mpr ⟨low, early⟩)] at reached
    · exact reached.trans (owned.reaches (Nat.le_of_not_lt early) high).2

end LaidOut

end MissionGraph
