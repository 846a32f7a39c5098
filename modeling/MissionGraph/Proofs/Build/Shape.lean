import MissionGraph.Proofs.Build.Program
import MissionGraph.Proofs.Graph.Simplification

/-!
# The nodes of a layout

What all nodes that a layout uses have in common, and where their children lie: behind them in the
same layout, or at the start of a sub that is called.
-/

namespace MissionGraph

open Mission (Data Factions Field)
open Script (Block Condition Statement)

variable {α : Type} {graph : Graph} {scope : Scope} {part : Part α} {first last : Nat}

namespace Part

/-- The node that is there before a part begins. -/
def cursor? : Part α → Option (NodeId × Node)
  | .body cursor node _ => some (cursor, node)
  | _ => none

/-- The statements of a part and all statements inside them. -/
def inside : Part α → List (Statement α)
  | .body _ _ statements => Statement.walkBody statements
  | .choice blocks => Statement.walkBlocks blocks
  | .rest blocks => Statement.walkBlocks blocks
  | .block single => Statement.walkBody single.body

/-- The blocks of an `if` that a part consists of. -/
def tests : Part α → List (Block α)
  | .choice blocks => blocks
  | .rest blocks => blocks
  | _ => []

/-- A layout with these numbers says what the node under a number is. -/
def Owns (part : Part α) (first last id : Nat) : Prop :=
  (first ≤ id ∧ id < last) ∨ ∃ node, part.cursor? = some (id, node)

theorem owns_body_iff {cursor : NodeId} {node : Node} {statements : List (Statement α)} {id : Nat} :
    (Part.body cursor node statements).Owns first last id ↔ (first ≤ id ∧ id < last) ∨ id = cursor := by
  constructor
  · rintro (inRange | ⟨_, same⟩)
    · exact .inl inRange
    · cases same
      exact .inr rfl
  · rintro (inRange | rfl)
    · exact .inl inRange
    · exact .inr ⟨node, rfl⟩

/-- A body from its first number on owns what follows that number. -/
theorem owns_behind {node : Node} {statements : List (Statement α)} {id : Nat} (low : first ≤ id)
    (high : id < last) : (Part.body first node statements).Owns (first + 1) last id := by
  by_cases isFirst : id = first
  · exact .inr ⟨node, by rw [isFirst]; rfl⟩
  · exact .inl ⟨by omega, high⟩

/-- A part with no node before it owns only the numbers that it uses up. -/
theorem Owns.inRange {id : Nat} (owned : part.Owns first last id) (noCursor : part.cursor? = none) :
    first ≤ id ∧ id < last := by
  rcases owned with inRange | ⟨node, found⟩
  · exact inRange
  · rw [noCursor] at found
    cases found

/-- The statements after the first one own the same numbers if they go on at the same node. -/
theorem Owns.here {cursor : NodeId} {node other : Node} {statement : Statement α} {statements : List (Statement α)}
    {id : Nat} (owned : (Part.body cursor node (statement :: statements)).Owns first last id) :
    (Part.body cursor other statements).Owns first last id :=
  owns_body_iff.mpr (owns_body_iff.mp owned)

end Part

/-- Every layout uses up numbers from the first one on; all but bodies use up at least one. -/
theorem Layout.le (layout : Layout graph scope part first last) :
    first ≤ last ∧ (part.cursor? = none → first < last) := by
  induction layout with
  | done _ => exact ⟨Nat.le_refl _, nofun⟩
  | fieldHere _ _ _ ih => exact ⟨ih.1, nofun⟩
  | fieldBehind _ _ _ _ ih => exact ⟨Nat.le_of_succ_le ih.1, nofun⟩
  | missingHere _ ih => exact ⟨ih.1, nofun⟩
  | missingBehind _ _ _ ih => exact ⟨Nat.le_of_succ_le ih.1, nofun⟩
  | doc _ _ ih => exact ⟨Nat.le_of_succ_le ih.1, nofun⟩
  | call _ _ ih => exact ⟨ih.1, nofun⟩
  | choiceBehind _ _ ih => exact ⟨ih.1, nofun⟩
  | choice _ _ _ _ ihBlock ihRest =>
      have inBlock := ihBlock.2 rfl
      have inRest := ihRest.1
      exact ⟨by omega, fun _ => by omega⟩
  | lastBlock _ ih => exact ⟨ih.1, fun _ => ih.2 rfl⟩
  | laterBlocks _ ih => exact ⟨ih.1, fun _ => ih.2 rfl⟩
  | groupBlock _ _ ih => exact ⟨Nat.le_of_succ_le ih.1, fun _ => ih.1⟩
  | innerChoice _ _ ih => exact ⟨ih.1, fun _ => ih.2 rfl⟩
  | plainBlock _ _ _ ih => exact ⟨Nat.le_of_succ_le ih.1, fun _ => ih.1⟩

theorem Layouts.le {bodies : List (NodeId × List (Statement α))} (layouts : Layouts graph scope bodies first last) :
    first ≤ last := by
  induction layouts with
  | nil => exact Nat.le_refl _
  | cons head _ ih => exact Nat.le_trans head.le.1 ih

/-- The property holds of new nodes and is kept by everything that statements do to a node. -/
structure Invariant (scope : Scope) (all : List (Statement α)) (holds : Node → Prop) : Prop where
  empty : holds ⟨.data .empty, []⟩
  offered : ∀ name factions, scope.groups.lookup name = some factions →
    holds ⟨.data (.offeredBy factions), []⟩
  documentation : ∀ note name, .doc note name ∈ all → holds ⟨.documentation name, []⟩
  decision : ∀ (note : α) blocks (block : Block α) nickname one two,
    .choice note blocks ∈ all → block ∈ blocks → block.condition.nickname? = some nickname →
    holds ⟨.decision nickname, [one, two]⟩
  put : ∀ note field data children factions, .field note field ∈ all →
    Builder.factionsFor? scope.groups field = some factions →
    data.accepts (data.kind (!children.isEmpty)) field = true → holds ⟨.data data, children⟩ →
    holds ⟨.data (data.put factions field), children⟩
  missing : ∀ data children, holds ⟨.data data, children⟩ → holds ⟨.data data.missing, children⟩
  leading : ∀ node child, node.nickname? = none → holds node →
    holds (node.leadingTo child)

/-- An empty data node can take every field. -/
theorem accepts_empty (field : Field) : Data.empty.accepts (Data.empty.kind false) field = true := by
  cases field <;> rfl

/-- A part of a script with the given statements in it. -/
structure Part.Within (part : Part α) (all : List (Statement α)) : Prop where
  inside : ∀ statement ∈ part.inside, statement ∈ all
  tests : ∀ block ∈ part.tests, ∃ note blocks, .choice note blocks ∈ all ∧ block ∈ blocks

namespace Part.Within

variable {all : List (Statement α)} {cursor next : NodeId} {node other : Node}
  {statement : Statement α} {statements : List (Statement α)} {blocks : List (Block α)}

theorem walk (within : (Part.body cursor node (statement :: statements)).Within all) :
    ∀ inner ∈ Statement.walk statement, inner ∈ all :=
  fun inner member => within.inside inner (mem_walkBody_cons.mpr (.inl member))

theorem head (within : (Part.body cursor node (statement :: statements)).Within all) : statement ∈ all :=
  within.walk statement (mem_walk_self statement)

theorem tail (within : (Part.body cursor node (statement :: statements)).Within all) :
    (Part.body next other statements).Within all :=
  ⟨fun inner member => within.inside inner (mem_walkBody_cons.mpr (.inr member)), nofun⟩

theorem choice {note : α} (inside : ∀ inner ∈ Statement.walk (.choice note blocks), inner ∈ all) :
    (Part.choice blocks).Within all :=
  ⟨fun inner member => inside inner (List.mem_cons_of_mem _ member),
    fun _ member => ⟨note, blocks, inside _ (mem_walk_self _), member⟩⟩

theorem firstBlock {block : Block α} (within : (Part.choice (block :: blocks)).Within all) :
    (Part.block block).Within all := by
  refine ⟨fun inner member => ?_, nofun⟩
  have listed : inner ∈ Statement.walkBlocks (block :: blocks) := mem_walkBlocks_cons.mpr (.inl member)
  exact within.inside inner listed

theorem otherBlocks {block : Block α} (within : (Part.choice (block :: blocks)).Within all) :
    (Part.rest blocks).Within all := by
  refine ⟨fun inner member => ?_, fun other member => within.tests other (List.mem_cons_of_mem _ member)⟩
  have listed : inner ∈ Statement.walkBlocks (block :: blocks) := mem_walkBlocks_cons.mpr (.inr member)
  exact within.inside inner listed

theorem onlyBlock {block : Block α} (within : (Part.rest [block]).Within all) :
    (Part.block block).Within all := by
  refine ⟨fun inner member => ?_, nofun⟩
  have listed : inner ∈ Statement.walkBlocks [block] := mem_walkBlocks_cons.mpr (.inl member)
  exact within.inside inner listed

theorem laterBlocks (within : (Part.rest blocks).Within all) : (Part.choice blocks).Within all :=
  ⟨within.inside, within.tests⟩

theorem blockBody {condition : Condition} (within : (Part.block (.mk condition statements)).Within all) :
    (Part.body cursor node statements).Within all :=
  ⟨within.inside, nofun⟩

theorem innerChoice {condition : Condition} {note : α}
    (within : (Part.block (.mk condition [.choice note blocks])).Within all) :
    (Part.choice blocks).Within all :=
  have asBody : (Part.body Graph.entry ⟨.data .empty, []⟩ [.choice note blocks]).Within all := within.blockBody
  .choice asBody.walk

end Part.Within

/-- The node before a part satisfies a property and is no decision. -/
def Part.Starts (part : Part α) (holds : Node → Prop) : Prop :=
  ∀ id node, part.cursor? = some (id, node) → holds node ∧ node.nickname? = none

theorem Part.starts_of_none {holds : Node → Prop} (noCursor : part.cursor? = none) : part.Starts holds := by
  intro id node found
  rw [noCursor] at found
  cases found

theorem Part.starts_body {holds : Node → Prop} {cursor : NodeId} {node : Node}
    {statements : List (Statement α)} (holdsNode : holds node)
    (notDecision : node.nickname? = none) :
    (Part.body cursor node statements).Starts holds := by
  rintro _ _ ⟨⟩
  exact ⟨holdsNode, notDecision⟩

/-- Where the cursor's node leads to a new node, the property holds of both if it holds behind the new one. -/
theorem Invariant.grow {all : List (Statement α)} {holds : Node → Prop} (invariant : Invariant scope all holds)
    {cursor : NodeId} {node : Node} {content : Content} {statement : Statement α} {statements : List (Statement α)}
    {id : Nat} (start : (Part.body cursor node (statement :: statements)).Starts holds)
    (found : graph.get? cursor = some (node.leadingTo first))
    (owned : (Part.body cursor node (statement :: statements)).Owns first last id)
    (later : (Part.body first ⟨content, []⟩ statements).Owns (first + 1) last id →
      ∃ node, graph.get? id = some node ∧ holds node) : ∃ node, graph.get? id = some node ∧ holds node := by
  rcases Part.owns_body_iff.mp owned with ⟨low, high⟩ | rfl
  · exact later (Part.owns_behind low high)
  · obtain ⟨holdsNode, notDecision⟩ := start _ _ rfl
    exact ⟨_, found, invariant.leading _ _ notDecision holdsNode⟩

/-- All nodes of a layout satisfy an invariant that the node before it satisfies. -/
theorem Layout.forall_owned {all : List (Statement α)} {holds : Node → Prop}
    (invariant : Invariant scope all holds) (layout : Layout graph scope part first last)
    (within : part.Within all) (start : part.Starts holds) {id : Nat}
    (owned : part.Owns first last id) : ∃ node, graph.get? id = some node ∧ holds node := by
  induction layout with
  | @done cursor node first found =>
      rcases Part.owns_body_iff.mp owned with ⟨low, high⟩ | rfl
      · exact absurd high (Nat.not_lt.mpr low)
      · exact ⟨node, found, (start _ _ rfl).1⟩
  | fieldHere taken known _ ih =>
      have put := invariant.put _ _ _ _ _ within.head known taken (start _ _ rfl).1
      exact ih within.tail (Part.starts_body put rfl) owned.here
  | fieldBehind _ known found _ ih =>
      have put := invariant.put _ _ _ _ _ within.head known (accepts_empty _) invariant.empty
      exact invariant.grow start found owned (ih within.tail (Part.starts_body put rfl))
  | missingHere _ ih =>
      have missing := invariant.missing _ _ (start _ _ rfl).1
      exact ih within.tail (Part.starts_body missing rfl) owned.here
  | missingBehind _ found _ ih =>
      have missing := invariant.missing _ _ invariant.empty
      exact invariant.grow start found owned (ih within.tail (Part.starts_body missing rfl))
  | doc found _ ih =>
      have documentation := invariant.documentation _ _ within.head
      exact invariant.grow start found owned (ih within.tail (Part.starts_body documentation rfl))
  | @call cursor node note name target statements first last known _ ih =>
      obtain ⟨holdsNode, notDecision⟩ := start _ _ rfl
      have leading := invariant.leading node target notDecision holdsNode
      exact ih within.tail (Part.starts_body leading notDecision) owned.here
  | choiceBehind found _ ih =>
      rcases Part.owns_body_iff.mp owned with inRange | rfl
      · exact ih (.choice within.walk) (Part.starts_of_none rfl) (.inl inRange)
      · obtain ⟨holdsNode, notDecision⟩ := start _ _ rfl
        exact ⟨_, found, invariant.leading _ _ notDecision holdsNode⟩
  | @choice nickname block blocks first middle last named found _ _ ihBlock ihRest =>
      obtain ⟨low, high⟩ := owned.inRange rfl
      by_cases isFirst : id = first
      · subst isFirst
        obtain ⟨note, whole, listed, member⟩ := within.tests block List.mem_cons_self
        exact ⟨_, found, invariant.decision note whole block nickname _ _ listed member named⟩
      · by_cases inBlock : id < middle
        · exact ihBlock within.firstBlock (Part.starts_of_none rfl) (.inl ⟨by omega, inBlock⟩)
        · exact ihRest within.otherBlocks (Part.starts_of_none rfl) (.inl ⟨by omega, high⟩)
  | lastBlock _ ih => exact ih within.onlyBlock (Part.starts_of_none rfl) (.inl (owned.inRange rfl))
  | laterBlocks _ ih => exact ih within.laterBlocks (Part.starts_of_none rfl) (.inl (owned.inRange rfl))
  | groupBlock known _ ih =>
      obtain ⟨low, high⟩ := owned.inRange rfl
      have offered := invariant.offered _ _ known
      exact ih within.blockBody (Part.starts_body offered rfl) (Part.owns_behind low high)
  | innerChoice _ _ ih => exact ih within.innerChoice (Part.starts_of_none rfl) (.inl (owned.inRange rfl))
  | plainBlock _ _ _ ih =>
      obtain ⟨low, high⟩ := owned.inRange rfl
      exact ih within.blockBody (Part.starts_body invariant.empty rfl) (Part.owns_behind low high)

/-! ## Children -/

/-- The node before a part has a number below those of the part. -/
def Part.Behind (part : Part α) (first : Nat) : Prop :=
  ∀ id node, part.cursor? = some (id, node) → id < first

theorem Part.behind_body {cursor : NodeId} {node : Node} {statements : List (Statement α)}
    (below : cursor < first) : (Part.body cursor node statements).Behind first := by
  rintro _ _ ⟨⟩
  exact below

theorem Part.behind_of_none (noCursor : part.cursor? = none) : part.Behind first := by
  intro id node found
  rw [noCursor] at found
  cases found

/-- How an edge of a layout comes about: it leads on within the layout, it is a call, or it was there
before the layout. -/
inductive Leads (scope : Scope) (part : Part α) (first last id child : Nat) : Prop where
  | ahead (up : id < child) (low : first ≤ child) (high : child < last)
  | called (note : α) (name : String) (listed : .call note name ∈ part.inside)
      (known : scope.subs.lookup name = some child)
  | earlier (node : Node) (here : part.cursor? = some (id, node)) (member : child ∈ node.children)

theorem Node.mem_children_leadingTo {node : Node} {target child : NodeId} :
    child ∈ (node.leadingTo target).children ↔ child ∈ node.children ∨ child = target := by
  rw [leadingTo, List.mem_append, List.mem_singleton]

theorem Part.childless_of_none (noCursor : part.cursor? = none) :
    ∀ id node, part.cursor? = some (id, node) → node.children = [] := by
  intro id node found
  rw [noCursor] at found
  cases found

theorem Part.childless_body {cursor : NodeId} {content : Content} {statements : List (Statement α)} :
    ∀ id node, (Part.body cursor ⟨content, []⟩ statements).cursor? = some (id, node) → node.children = [] := by
  rintro _ _ ⟨⟩
  rfl

namespace Leads

variable {id child next : Nat} {cursor : NodeId} {node : Node} {statement : Statement α}
  {statements : List (Statement α)}

/-- An edge from the cursor's node to the node that follows it. -/
theorem step (member : child ∈ (node.leadingTo first).children) (below : cursor < first)
    (nonempty : first < last) :
    Leads scope (.body cursor node (statement :: statements)) first last cursor child := by
  rcases Node.mem_children_leadingTo.mp member with old | rfl
  · exact .earlier node rfl old
  · exact .ahead below (Nat.le_refl _) nonempty

/-- An edge of a part that starts without children is an edge of every part around it. -/
theorem widen {outer : Part α} {low high : Nat} (leads : Leads scope part first last id child)
    (childless : ∀ id node, part.cursor? = some (id, node) → node.children = [])
    (inside : ∀ statement ∈ part.inside, statement ∈ outer.inside) (left : low ≤ first)
    (right : last ≤ high) : Leads scope outer low high id child := by
  cases leads with
  | ahead up from_first to_last =>
      exact .ahead up (Nat.le_trans left from_first) (Nat.lt_of_lt_of_le to_last right)
  | called note name listed known => exact .called note name (inside _ listed) known
  | earlier node here member =>
      rw [childless id node here] at member
      cases member

theorem behind {content : Content}
    (leads : Leads scope (.body first ⟨content, []⟩ statements) (first + 1) last id child) :
    Leads scope (.body cursor node (statement :: statements)) first last id child := by
  refine leads.widen Part.childless_body ?_ (Nat.le_succ _) (Nat.le_refl _)
  exact fun inner listed => mem_walkBody_cons.mpr (.inr listed)

/-- The statements go on with a node that has the same children. -/
theorem here {other : Node} (leads : Leads scope (.body cursor other statements) first last id child)
    (same : other.children = node.children) :
    Leads scope (.body cursor node (statement :: statements)) first last id child := by
  cases leads with
  | ahead up low high => exact .ahead up low high
  | called note name listed known => exact .called note name (mem_walkBody_cons.mpr (.inr listed)) known
  | earlier _ here member =>
      cases here
      exact .earlier node rfl (same ▸ member)

/-- The cursor's node leads to a new node, and the statements go on behind that. -/
theorem grow {content : Content} (below : cursor < first) (nonempty : first < last)
    (found : graph.get? cursor = some (node.leadingTo first)) (edge : graph.Child id child)
    (owned : (Part.body cursor node (statement :: statements)).Owns first last id)
    (later : (Part.body first ⟨content, []⟩ statements).Owns (first + 1) last id →
      Leads scope (.body first ⟨content, []⟩ statements) (first + 1) last id child) :
    Leads scope (.body cursor node (statement :: statements)) first last id child := by
  rcases Part.owns_body_iff.mp owned with ⟨low, high⟩ | rfl
  · exact (later (Part.owns_behind low high)).behind
  · rw [Graph.Child, Graph.children_of_get? found] at edge
    exact .step edge below nonempty

/-- The statements go on with a node that leads to a called sub as well. -/
theorem call {target : NodeId} {note : α} {name : String} (known : scope.subs.lookup name = some target)
    (leads : Leads scope (.body cursor (node.leadingTo target) statements) first last id child) :
    Leads scope (.body cursor node (.call note name :: statements)) first last id child := by
  cases leads with
  | ahead up low high => exact .ahead up low high
  | called note name listed known => exact .called note name (mem_walkBody_cons.mpr (.inr listed)) known
  | earlier _ here member =>
      cases here
      rcases Node.mem_children_leadingTo.mp member with old | rfl
      · exact .earlier node rfl old
      · exact .called note name (mem_walkBody_cons.mpr (.inl (mem_walk_self _))) known

end Leads

/-- Every edge from a node of a layout comes about in one of the three ways. -/
theorem Layout.leads (layout : Layout graph scope part first last) (below : part.Behind first)
    {id child : Nat} (owned : part.Owns first last id) (edge : graph.Child id child) :
    Leads scope part first last id child := by
  induction layout with
  | done found =>
      rcases Part.owns_body_iff.mp owned with ⟨low, high⟩ | rfl
      · exact absurd high (Nat.not_lt.mpr low)
      · rw [Graph.Child, Graph.children_of_get? found] at edge
        exact .earlier _ rfl edge
  | fieldHere _ _ _ ih => exact (ih (Part.behind_body (below _ _ rfl)) owned.here).here rfl
  | fieldBehind _ _ found later ih =>
      exact .grow (below _ _ rfl) later.le.1 found edge owned (ih (Part.behind_body (Nat.lt_succ_self _)))
  | missingHere _ ih => exact (ih (Part.behind_body (below _ _ rfl)) owned.here).here rfl
  | missingBehind _ found later ih =>
      exact .grow (below _ _ rfl) later.le.1 found edge owned (ih (Part.behind_body (Nat.lt_succ_self _)))
  | doc found later ih =>
      exact .grow (below _ _ rfl) later.le.1 found edge owned (ih (Part.behind_body (Nat.lt_succ_self _)))
  | call known _ ih => exact .call known (ih (Part.behind_body (below _ _ rfl)) owned.here)
  | choiceBehind found inner ih =>
      rcases Part.owns_body_iff.mp owned with inRange | rfl
      · refine (ih (Part.behind_of_none rfl) (.inl inRange)).widen (Part.childless_of_none rfl) ?_
          (Nat.le_refl _) (Nat.le_refl _)
        exact fun other listed => mem_walkBody_cons.mpr (.inl (List.mem_cons_of_mem _ listed))
      · rw [Graph.Child, Graph.children_of_get? found] at edge
        exact .step edge (below _ _ rfl) (inner.le.2 rfl)
  | @choice nickname block blocks first middle last named found inner later ihBlock ihRest =>
      have inBlock := inner.le.2 rfl
      have inRest := later.le
      obtain ⟨low, high⟩ := owned.inRange rfl
      by_cases isFirst : id = first
      · subst isFirst
        rw [Graph.Child, Graph.children_of_get? found, List.mem_pair] at edge
        rcases edge with rfl | rfl
        · exact .ahead (by omega) (by omega) (by omega)
        · exact .ahead (by omega) (by omega) (inRest.2 rfl)
      · by_cases isInBlock : id < middle
        · refine (ihBlock (Part.behind_of_none rfl) (.inl ⟨by omega, isInBlock⟩)).widen
            (Part.childless_of_none rfl) ?_ (by omega) (by omega)
          exact fun other listed => mem_walkBlocks_cons.mpr (.inl listed)
        · refine (ihRest (Part.behind_of_none rfl) (.inl ⟨by omega, high⟩)).widen
            (Part.childless_of_none rfl) ?_ (by omega) (by omega)
          exact fun other listed => mem_walkBlocks_cons.mpr (.inr listed)
  | lastBlock _ ih =>
      refine (ih (Part.behind_of_none rfl) (.inl (owned.inRange rfl))).widen (Part.childless_of_none rfl) ?_
        (Nat.le_refl _) (Nat.le_refl _)
      exact fun other listed => mem_walkBlocks_cons.mpr (.inl listed)
  | laterBlocks _ ih =>
      exact (ih (Part.behind_of_none rfl) (.inl (owned.inRange rfl))).widen (Part.childless_of_none rfl)
        (fun _ listed => listed) (Nat.le_refl _) (Nat.le_refl _)
  | groupBlock _ _ ih =>
      obtain ⟨low, high⟩ := owned.inRange rfl
      exact (ih (Part.behind_body (Nat.lt_succ_self _)) (Part.owns_behind low high)).widen Part.childless_body
        (fun _ listed => listed) (Nat.le_succ _) (Nat.le_refl _)
  | innerChoice _ _ ih =>
      refine (ih (Part.behind_of_none rfl) (.inl (owned.inRange rfl))).widen (Part.childless_of_none rfl) ?_
        (Nat.le_refl _) (Nat.le_refl _)
      exact fun other listed => mem_walkBody_cons.mpr (.inl (List.mem_cons_of_mem _ listed))
  | plainBlock _ _ _ ih =>
      obtain ⟨low, high⟩ := owned.inRange rfl
      exact (ih (Part.behind_body (Nat.lt_succ_self _)) (Part.owns_behind low high)).widen Part.childless_body
        (fun _ listed => listed) (Nat.le_succ _) (Nat.le_refl _)

end MissionGraph
