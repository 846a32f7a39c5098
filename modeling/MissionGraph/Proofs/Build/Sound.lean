import MissionGraph.Graph.Compile
import MissionGraph.Proofs.Build.Shape
import MissionGraph.Proofs.Script.Checks

/-!
# Graphs of scripts

The graph of a script that passes the checks has an entry, its children are stored, it has no cycle,
and every decision in it has two ways out.
-/

namespace MissionGraph

open Mission (Data Factions Field)
open Script (Block Condition Pos Statement)

/-- The node can be visited: it is no joined chain of decisions, and a decision has two ways out. -/
def Node.Sound (node : Node) : Prop :=
  match node.content with
  | .data _ => True
  | .documentation _ => True
  | .decision _ => node.children.length = 2
  | .choice _ => False

instance (node : Node) : Decidable node.Sound :=
  match node with
  | ⟨.data _, _⟩ => isTrue trivial
  | ⟨.documentation _, _⟩ => isTrue trivial
  | ⟨.decision _, children⟩ => inferInstanceAs (Decidable (children.length = 2))
  | ⟨.choice _, _⟩ => isFalse id

theorem invariant_sound {α : Type} (scope : Scope) (all : List (Statement α)) :
    Invariant scope all Node.Sound where
  empty := trivial
  offered := fun _ _ _ => trivial
  documentation := fun _ _ _ => trivial
  decision := fun _ _ _ _ _ _ _ _ _ => rfl
  put := fun _ _ _ _ _ _ _ _ _ => trivial
  missing := fun _ _ _ => trivial
  leading := by
    rintro ⟨content, children⟩ child notDecision sound
    cases content with
    | data _ => trivial
    | documentation _ => trivial
    | decision _ => cases notDecision
    | choice _ => exact sound

variable {α : Type} {graph : Graph} {scope : Scope} {first last : Nat}

/-- The layout of one of several bodies. -/
structure BodyAt (graph : Graph) (scope : Scope) (root : NodeId) (body : List (Statement α))
    (low high : Nat) : Prop where
  layout : Layout graph scope (.body root ⟨.data .empty, []⟩ body) low high
  below : root < low

/-- A number is that of the node where a body starts, or one of those that the body uses up. -/
def Covers (root : NodeId) (low high id : Nat) : Prop :=
  (low ≤ id ∧ id < high) ∨ id = root

theorem Layouts.cover {bodies : List (NodeId × List (Statement α))}
    (layouts : Layouts graph scope bodies first last) (below : ∀ root ∈ bodies.map Prod.fst, root < first)
    {id : Nat} (used : (first ≤ id ∧ id < last) ∨ id ∈ bodies.map Prod.fst) :
    ∃ root body low high, (root, body) ∈ bodies ∧ BodyAt graph scope root body low high ∧
      Covers root low high id := by
  induction layouts with
  | nil =>
      rcases used with ⟨low, high⟩ | member
      · exact absurd high (Nat.not_lt.mpr low)
      · cases member
  | @cons root body bodies first middle last head tail ih =>
      have least := head.le.1
      have belowRoot := below root List.mem_cons_self
      have belowRest : ∀ other ∈ bodies.map Prod.fst, other < middle := by
        intro other member
        exact Nat.lt_of_lt_of_le (below other (List.mem_cons_of_mem _ member)) least
      have inHead (covered : Covers root first middle id) :
          ∃ found inner low high, (found, inner) ∈ (root, body) :: bodies ∧
            BodyAt graph scope found inner low high ∧ Covers found low high id :=
        ⟨root, body, first, middle, List.mem_cons_self, ⟨head, belowRoot⟩, covered⟩
      have inTail (usedRest : (middle ≤ id ∧ id < last) ∨ id ∈ bodies.map Prod.fst) :
          ∃ found inner low high, (found, inner) ∈ (root, body) :: bodies ∧
            BodyAt graph scope found inner low high ∧ Covers found low high id := by
        obtain ⟨found, inner, low, high, member, laid, covered⟩ := ih belowRest usedRest
        exact ⟨found, inner, low, high, List.mem_cons_of_mem _ member, laid, covered⟩
      rcases used with ⟨low, high⟩ | member
      · by_cases inFirst : id < middle
        · exact inHead (.inl ⟨low, inFirst⟩)
        · exact inTail (.inl ⟨Nat.le_of_not_lt inFirst, high⟩)
      · rcases List.mem_cons.mp member with same | later
        · exact inHead (.inr same)
        · exact inTail (.inr later)

/-- Every listed body is laid out. -/
theorem Layouts.bodyAt {bodies : List (NodeId × List (Statement α))}
    (layouts : Layouts graph scope bodies first last) (below : ∀ root ∈ bodies.map Prod.fst, root < first)
    {root : NodeId} {body : List (Statement α)} (listed : (root, body) ∈ bodies) :
    ∃ low high, BodyAt graph scope root body low high := by
  induction layouts with
  | nil => cases listed
  | @cons head inner bodies first middle last layout tail ih =>
      rcases List.mem_cons.mp listed with same | later
      · cases same
        exact ⟨first, middle, layout, below root List.mem_cons_self⟩
      · refine ih (fun other member => ?_) later
        exact Nat.lt_of_lt_of_le (below other (List.mem_cons_of_mem _ member)) layout.le.1

/-- Every way down from a node of a body ends if it does so for all subs that the body calls. -/
theorem BodyAt.acc {root : NodeId} {body : List (Statement α)} {low high : Nat}
    (laid : BodyAt graph scope root body low high)
    (callees : ∀ note name child, .call note name ∈ Statement.walkBody body →
      scope.subs.lookup name = some child → Acc (fun child parent => graph.Child parent child) child)
    {id : Nat} (covered : Covers root low high id) :
    Acc (fun child parent => graph.Child parent child) id := by
  have step (id : Nat) (covered : Covers root low high id)
      (ahead : ∀ child, id < child → low ≤ child → child < high →
        Acc (fun child parent => graph.Child parent child) child) :
      Acc (fun child parent => graph.Child parent child) id := by
    refine .intro id fun child edge => ?_
    cases laid.layout.leads (Part.behind_body laid.below) (Part.owns_body_iff.mpr covered) edge with
    | ahead up from_low to_high => exact ahead child up from_low to_high
    | called note name listed known => exact callees note name child listed known
    | earlier node here member =>
        cases here
        cases member
  -- numbers grow along the edges inside the body
  have inside (rest : Nat) : ∀ id, high - id = rest → low ≤ id → id < high →
      Acc (fun child parent => graph.Child parent child) id := by
    induction rest using Nat.strongRecOn with
    | ind rest ih =>
        intro id size from_low to_high
        refine step id (.inl ⟨from_low, to_high⟩) fun child up from_low to_high => ?_
        exact ih (high - child) (by omega) child rfl from_low to_high
  exact step id covered fun child _ from_low to_high => inside _ child rfl from_low to_high

namespace LaidOut

variable {script : List (Statement α)}

/-- The numbers where bodies start are below those that the bodies use up. -/
theorem root_lt {root : NodeId} (listed : root ∈ (Script.bodiesOf script).map Prod.fst) :
    Graph.entry ≤ root ∧ root < Graph.entry + 1 + (Script.subsOf script).length :=
  Script.mem_roots_iff.mp listed

/-- Every stored node belongs to a body. -/
theorem cover (laid : LaidOut script graph) {id : NodeId} {node : Node}
    (found : graph.get? id = some node) :
    ∃ root body low high, (root, body) ∈ Script.bodiesOf script ∧
      BodyAt graph (Script.scopeOf script) root body low high ∧ Covers root low high id := by
  refine laid.layouts.cover (fun root listed => (root_lt listed).2) ?_
  obtain ⟨low, high⟩ := laid.stored id node found
  by_cases isRoot : id < Graph.entry + 1 + (Script.subsOf script).length
  · exact .inr (Script.mem_roots_iff.mpr ⟨low, isRoot⟩)
  · exact .inl ⟨Nat.le_of_not_lt isRoot, high⟩

/-- Every body of the script is laid out. -/
theorem bodyAt (laid : LaidOut script graph) {root : NodeId} {body : List (Statement α)}
    (listed : (root, body) ∈ Script.bodiesOf script) :
    ∃ low high, BodyAt graph (Script.scopeOf script) root body low high :=
  laid.layouts.bodyAt (fun _ member => (root_lt member).2) listed

/-- The nodes of a body satisfy every invariant of the script's statements. -/
theorem forall_covered {holds : Node → Prop}
    (invariant : Invariant (Script.scopeOf script) (Statement.walkBody script) holds) {id : Nat}
    {root : NodeId} {body : List (Statement α)} {low high : Nat}
    (listed : (root, body) ∈ Script.bodiesOf script)
    (bodyAt : BodyAt graph (Script.scopeOf script) root body low high) (covered : Covers root low high id) :
    ∃ node, graph.get? id = some node ∧ holds node := by
  refine bodyAt.layout.forall_owned invariant ⟨?_, ?_⟩ (Part.starts_body invariant.empty rfl)
    (Part.owns_body_iff.mpr covered)
  · exact fun inner member => Script.mem_walkBody_of_mem_bodiesOf listed member
  · exact fun _ member => absurd member List.not_mem_nil

/-- All stored nodes satisfy every invariant of the script's statements. -/
theorem forall_stored (laid : LaidOut script graph) {holds : Node → Prop}
    (invariant : Invariant (Script.scopeOf script) (Statement.walkBody script) holds) {id : NodeId}
    {node : Node} (found : graph.get? id = some node) : holds node := by
  obtain ⟨root, body, low, high, listed, bodyAt, covered⟩ := laid.cover found
  obtain ⟨_, foundAgain, holdsNode⟩ := forall_covered invariant listed bodyAt covered
  rw [found] at foundAgain
  cases foundAgain
  exact holdsNode

theorem stored_of_covered {id : Nat} {root : NodeId} {body : List (Statement α)} {low high : Nat}
    (listed : (root, body) ∈ Script.bodiesOf script)
    (bodyAt : BodyAt graph (Script.scopeOf script) root body low high) (covered : Covers root low high id) :
    ∃ node, graph.get? id = some node := by
  obtain ⟨node, found, _⟩ := forall_covered (invariant_sound _ _) listed bodyAt covered
  exact ⟨node, found⟩

/-- The nodes where bodies start are stored. -/
theorem root_stored (laid : LaidOut script graph) {root : NodeId}
    (listed : root ∈ (Script.bodiesOf script).map Prod.fst) : ∃ node, graph.get? root = some node := by
  obtain ⟨_, _, _, _, isBody, bodyAt, covered⟩ :=
    laid.layouts.cover (fun root listed => (root_lt listed).2) (.inr listed)
  exact stored_of_covered isBody bodyAt covered

end LaidOut

namespace Script

/-- A sub that is found in the scope of a script is declared there. -/
theorem mem_subsOf_of_lookup {script : List (Statement α)} {name : String} {id : NodeId}
    (known : (scopeOf script).subs.lookup name = some id) : ∃ body, (id, name, body) ∈ subsOf script := by
  obtain ⟨before, after, parts, _⟩ := List.lookup_eq_some_iff.mp known
  have member : (name, id) ∈ (scopeOf script).subs := by
    rw [parts]
    exact List.mem_append_right _ List.mem_cons_self
  obtain ⟨⟨_, _, body⟩, listed, same⟩ := List.mem_map.mp (List.mem_reverse.mp member)
  cases same
  exact ⟨body, listed⟩

theorem mem_bodiesOf_of_mem_subsOf {script body : List (Statement α)} {name : String} {id : NodeId}
    (declared : (id, name, body) ∈ subsOf script) : (id, body) ∈ bodiesOf script :=
  List.mem_cons_of_mem _ (List.mem_map.mpr ⟨_, declared, rfl⟩)

end Script

/-- Every child in the graph of a script is stored. -/
theorem LaidOut.closed {script : List (Statement α)} (laid : LaidOut script graph) : graph.Closed := by
  intro parent child edge
  obtain ⟨node, found, _⟩ := Graph.child_iff.mp edge
  obtain ⟨root, body, low, high, listed, bodyAt, covered⟩ := laid.cover found
  cases bodyAt.layout.leads (Part.behind_body bodyAt.below) (Part.owns_body_iff.mpr covered) edge with
  | ahead _ from_low to_high => exact stored_of_covered listed bodyAt (.inl ⟨from_low, to_high⟩)
  | called note name _ known =>
      obtain ⟨inner, declared⟩ := Script.mem_subsOf_of_lookup known
      exact laid.root_stored (List.mem_map.mpr ⟨_, Script.mem_bodiesOf_of_mem_subsOf declared, rfl⟩)
  | earlier node here member =>
      cases here
      cases member

/-- The graph of a script whose calls lead downwards has no cycle. -/
theorem LaidOut.acyclic {script : Script.Program} (laid : LaidOut script graph) {warnings : List String}
    (checked : Script.check script = .ok warnings) : graph.Acyclic := by
  obtain ⟨rank, down⟩ := Script.exists_rank_of_check checked
  -- subs of a lower rank come first, then the statements of the script itself
  have ofSub (level : Nat) : ∀ id name body, (id, name, body) ∈ Script.subsOf script → rank name = level →
      ∀ low high, BodyAt graph (Script.scopeOf script) id body low high → ∀ key, Covers id low high key →
        Acc (fun child parent => graph.Child parent child) key := by
    induction level using Nat.strongRecOn with
    | ind level ih =>
        intro id name body declared sameRank low high bodyAt key covered
        obtain ⟨note, member⟩ := Script.exists_mem_of_mem_subsFrom declared
        refine bodyAt.acc (fun place target child called known => ?_) covered
        obtain ⟨inner, declaredTarget⟩ := Script.mem_subsOf_of_lookup known
        obtain ⟨lowTarget, highTarget, targetAt⟩ :=
          laid.bodyAt (Script.mem_bodiesOf_of_mem_subsOf declaredTarget)
        exact ih (rank target) (sameRank ▸ down note name body member place target called) child target inner
          declaredTarget rfl _ _ targetAt child (.inr rfl)
  refine Graph.acyclic_of_acc fun id => ?_
  cases found : graph.get? id with
  | none =>
      refine .intro id fun child edge => ?_
      obtain ⟨_, foundAgain, _⟩ := Graph.child_iff.mp edge
      rw [found] at foundAgain
      cases foundAgain
  | some node =>
      obtain ⟨root, body, low, high, listed, bodyAt, covered⟩ := laid.cover found
      refine bodyAt.acc (fun place target child called known => ?_) covered
      obtain ⟨inner, declaredTarget⟩ := Script.mem_subsOf_of_lookup known
      obtain ⟨lowTarget, highTarget, targetAt⟩ :=
        laid.bodyAt (Script.mem_bodiesOf_of_mem_subsOf declaredTarget)
      exact ofSub _ child target inner declaredTarget rfl _ _ targetAt child (.inr rfl)

/-- The graph of a script that passes the checks is proper. -/
theorem LaidOut.proper {script : Script.Program} (laid : LaidOut script graph) {warnings : List String}
    (checked : Script.check script = .ok warnings) : graph.Proper where
  entry := laid.root_stored List.mem_cons_self
  closed := laid.closed
  acyclic := laid.acyclic checked

end MissionGraph
