import Mathlib.Algebra.BigOperators.Intervals
import Mathlib.Algebra.Order.Group.Multiset
import Mathlib.Tactic.Abel
import MissionGraph.Proofs.Build.Shape

/-!
# The values that nodes hold

Every field statement and every block that tests for a group contributes values. Where a part of a script
is laid out, the nodes hold exactly the values that were there before and those that its statements
contribute, each of them once.
-/

namespace MissionGraph

open Mission (Comm Data DataKind Difficulty Factions Field Message Objective Offer)
open Script (Block Condition Statement)

namespace Mission

/-- A value that a node can hold. -/
inductive Held where
  | weight (value : Int32)
  | zones (names : List String)
  | offerGroup (factions : Factions)
  | hostileGroup (factions : Factions)
  | difficulty (value : Difficulty)
  | failure (value : Message)
  | reward (value : Message)
  | objective (value : Objective)
  | offer (entry : Offer)
  | comm (value : Comm)
deriving DecidableEq

/-- All values of the data. -/
def Data.held (data : Data) : List Held :=
  data.weight.toList.map .weight ++ data.zones.toList.map .zones ++ data.offerGroup.toList.map .offerGroup ++
    data.hostileGroup.toList.map .hostileGroup ++ data.difficulty.toList.map .difficulty ++
    data.failure.toList.map .failure ++ data.reward.toList.map .reward ++ data.objectives.map .objective ++
    data.offers.map .offer ++ data.comms.map .comm

/-- The values of a field; for a field that names a group, the factions of that group. -/
def Field.values (factions : Factions) : Field → List Held
  | .comm value => [.comm value]
  | .failure value => [.failure value]
  | .reward value => [.reward value]
  | .objective value => [.objective value]
  | .offers entries => entries.map .offer
  | .difficulty value => [.difficulty value]
  | .weight value => [.weight value]
  | .zones names => [.zones names]
  | .offerGroup _ => [.offerGroup factions]
  | .hostileGroup _ => [.hostileGroup factions]

namespace Data

variable {data : Data} {field : Field} {factions : Factions}

theorem zones_of_kind {hasChildren : Bool} (isNone : data.kind hasChildren = .none) : data.zones = none := by
  cases zones : data.zones with
  | none => rfl
  | some names => simp [kind, zones, ite_eq_iff] at isNone

/-- The data has no value yet in the place of a field that holds a single one. -/
def Free (data : Data) : Field → Prop
  | .failure _ => data.failure = none
  | .reward _ => data.reward = none
  | .difficulty _ => data.difficulty = none
  | .weight _ => data.weight = none
  | .zones _ => data.zones = none
  | .offerGroup _ => data.offerGroup = none
  | .hostileGroup _ => data.hostileGroup = none
  | _ => True

theorem free_of_accepts {hasChildren : Bool} (taken : data.accepts (data.kind hasChildren) field = true) :
    data.Free field := by
  cases field with
  | comm _ => trivial
  | objective _ => trivial
  | offers _ => trivial
  | zones _ => exact zones_of_kind (beq_iff_eq.mp taken)
  | _ => exact Option.isNone_iff_eq_none.mp (Bool.and_eq_true_iff.mp taken).2

/-- A field that the data can take is added to its values, and no value is overwritten. -/
theorem held_put {hasChildren : Bool} (taken : data.accepts (data.kind hasChildren) field = true) :
    ((data.put factions field).held : Multiset Held) = data.held + field.values factions := by
  have free := free_of_accepts taken
  cases field <;>
    simp only [Free] at free <;>
    simp only [held, put, Field.values, free, List.map_append, List.map_singleton, Option.toList, ← Multiset.coe_add,
      List.map_nil, Multiset.coe_nil] <;>
    abel

end Data

end Mission

open Mission (Held)

/-- The values of a node with this content. -/
def Content.held : Content → List Held
  | .data values => values.held
  | _ => []

namespace Script

variable {α : Type}

/-- What a block for this condition contributes: the factions of the group that it tests for. A name that no
group has stands for no factions, so that no block is left out of the count. -/
def Condition.values (groups : List (String × Factions)) : Condition → List Held
  | .group name => [.offerGroup ((groups.lookup name).getD ⟨[]⟩)]
  | _ => []

/-- What the statement contributes, apart from the statements inside it. -/
def Statement.values (groups : List (String × Factions)) : Statement α → List Held
  | .field _ value => value.values ((Builder.factionsFor? groups value).getD ⟨[]⟩)
  | .choice _ blocks => blocks.flatMap fun block => block.condition.values groups
  | _ => []

/-- What all of the statements contribute. -/
def allValues (groups : List (String × Factions)) (statements : List (Statement α)) : List Held :=
  statements.flatMap (Statement.values groups)

/-- What the tests of an `if` contribute. -/
def testValues (groups : List (String × Factions)) (blocks : List (Block α)) : List Held :=
  blocks.flatMap fun block => block.condition.values groups

variable {groups : List (String × Factions)}

theorem allValues_append (first second : List (Statement α)) :
    (allValues groups (first ++ second) : Multiset Held) = allValues groups first + allValues groups second := by
  rw [allValues, List.flatMap_append, Multiset.coe_add]
  rfl

theorem allValues_field {note : α} {field : Field} {factions : Factions} {rest : List (Statement α)}
    (known : Builder.factionsFor? groups field = some factions) :
    (allValues groups (Statement.walkBody (.field note field :: rest)) : Multiset Held) =
      field.values factions + allValues groups (Statement.walkBody rest) := by
  have first : Statement.values groups (.field note field) = field.values factions := by
    rw [Statement.values, known]
    rfl
  rw [Multiset.coe_add, ← first]
  rfl

end Script

namespace Graph

/-- The values of the node under a number. -/
def heldAt (graph : Graph) (id : NodeId) : Multiset Held :=
  ((graph.get? id).map fun node => (node.content.held : Multiset Held)).getD 0

/-- The values of the nodes from the first number up to, but without, the last. -/
def heldFrom (graph : Graph) (first last : Nat) : Multiset Held :=
  ∑ id ∈ Finset.Ico first last, graph.heldAt id

variable {graph : Graph} {id : NodeId} {first middle last : Nat}

theorem heldAt_of_get? {node : Node} (found : graph.get? id = some node) :
    graph.heldAt id = node.content.held := by
  rw [heldAt, found]
  rfl

theorem heldFrom_self : graph.heldFrom first first = 0 := by
  rw [heldFrom, Finset.Ico_self, Finset.sum_empty]

theorem heldFrom_succ (nonempty : first < last) :
    graph.heldFrom first last = graph.heldAt first + graph.heldFrom (first + 1) last :=
  Finset.sum_eq_sum_Ico_succ_bot nonempty _

theorem heldFrom_append (low : first ≤ middle) (high : middle ≤ last) :
    graph.heldFrom first last = graph.heldFrom first middle + graph.heldFrom middle last :=
  (Finset.sum_Ico_consecutive _ low high).symm

end Graph

open Script (allValues testValues)

variable {α : Type} {graph : Graph} {scope : Scope} {part : Part α} {first last : Nat}

/-- What is held before a part begins, and what the part contributes. -/
def Part.values (groups : List (String × Factions)) : Part α → Multiset Held
  | .body _ node statements => node.content.held + allValues groups (Statement.walkBody statements)
  | .choice blocks => testValues groups blocks + allValues groups (Statement.walkBlocks blocks)
  | .rest blocks => testValues groups blocks + allValues groups (Statement.walkBlocks blocks)
  | .block single => single.condition.values groups + allValues groups (Statement.walkBody single.body)

/-- The values of the node before a part. -/
def Part.heldBefore (graph : Graph) : Part α → Multiset Held
  | .body cursor _ _ => graph.heldAt cursor
  | _ => 0

/-- A body that is nothing but an `if` contributes what the `if` does. -/
theorem Part.values_choice {groups : List (String × Factions)} {note : α} {blocks : List (Block α)} :
    (allValues groups (Statement.walkBody [.choice note blocks]) : Multiset Held) =
      (Part.choice blocks).values groups := by
  have body : Statement.walkBody [.choice note blocks] = .choice note blocks :: Statement.walkBlocks blocks :=
    List.append_nil _
  rw [body, Part.values, Multiset.coe_add]
  rfl

theorem Part.values_cons {groups : List (String × Factions)} {block : Block α} {blocks : List (Block α)} :
    (Part.choice (block :: blocks)).values groups = (Part.block block).values groups + (Part.rest blocks).values groups := by
  obtain ⟨condition, body⟩ := block
  have inside : Statement.walkBlocks (.mk condition body :: blocks) =
    Statement.walkBody body ++ Statement.walkBlocks blocks := rfl
  have tests : (testValues groups (.mk condition body :: blocks) : Multiset Held) =
      condition.values groups + testValues groups blocks := by
    rw [Multiset.coe_add]
    rfl
  simp only [Part.values, inside, tests, Script.allValues_append, Block.condition, Block.body]
  abel

theorem Part.values_groupBlock {groups : List (String × Factions)} {name : String} {factions : Factions}
    {body : List (Statement α)} (known : groups.lookup name = some factions) :
    (Part.block (.mk (.group name) body)).values groups =
      (Data.offeredBy factions).held + allValues groups (Statement.walkBody body) := by
  have test : (Condition.group name).values groups = (Data.offeredBy factions).held := by
    rw [Condition.values, known]
    rfl
  rw [← test]
  rfl

theorem Part.values_plainBlock {groups : List (String × Factions)} {condition : Condition} {body : List (Statement α)}
    (notGroup : condition.isGroup = false) :
    (Part.block (.mk condition body)).values groups = allValues groups (Statement.walkBody body) := by
  cases condition with
  | group name => cases notGroup
  | _ => exact zero_add _

/-- What the nodes before and behind a cursor hold together. -/
theorem Graph.held_behind {cursor : NodeId} {node : Node} (found : graph.get? cursor = some (node.leadingTo first))
    (nonempty : first < last) :
    graph.heldAt cursor + graph.heldFrom first last =
      node.content.held + (graph.heldAt first + graph.heldFrom (first + 1) last) := by
  rw [heldAt_of_get? found, heldFrom_succ nonempty]
  rfl

/-- What the nodes from a new node on hold together. -/
theorem Graph.held_new {held contributed : Multiset Held} (nonempty : first < last)
    (inner : graph.heldAt first + graph.heldFrom (first + 1) last = held + contributed) :
    0 + graph.heldFrom first last = held + contributed := by
  rw [zero_add, heldFrom_succ nonempty, inner]

theorem Mission.Data.held_put_empty {field : Field} {factions : Factions} :
    ((Data.empty.put factions field).held : Multiset Held) = field.values factions :=
  (held_put (accepts_empty field)).trans (zero_add _)

/-- The nodes of a part that is laid out hold what was there before and what its statements contribute. -/
theorem Layout.held (layout : Layout graph scope part first last) :
    part.heldBefore graph + graph.heldFrom first last = part.values scope.groups := by
  induction layout with
  | done found =>
      rw [Part.heldBefore, Graph.heldAt_of_get? found, Graph.heldFrom_self]
      rfl
  | fieldHere taken known _ ih =>
      refine Eq.trans ih ?_
      rw [Part.values, Part.values, Content.held, Content.held, Data.held_put taken, Script.allValues_field known,
        add_assoc]
  | fieldBehind _ known found later ih =>
      refine (Graph.held_behind found later.le.1).trans (congrArg _ (ih.trans ?_))
      rw [Part.values, Content.held, Data.held_put_empty, Script.allValues_field known]
  | missingHere _ ih => exact ih
  | missingBehind _ found later ih =>
      exact (Graph.held_behind found later.le.1).trans (congrArg _ (ih.trans (zero_add _)))
  | doc found later ih =>
      exact (Graph.held_behind found later.le.1).trans (congrArg _ (ih.trans (zero_add _)))
  | call _ _ ih => exact ih
  | choiceBehind found _ ih =>
      have blocks := (zero_add _).symm.trans ih
      rw [Part.heldBefore, Graph.heldAt_of_get? found, Part.values, Part.values_choice, blocks]
      rfl
  | choice _ found inner later ihBlock ihRest =>
      have block := (zero_add _).symm.trans ihBlock
      have rest := (zero_add _).symm.trans ihRest
      have firstLast := Nat.lt_of_lt_of_le (Nat.lt_of_succ_lt (inner.le.2 rfl)) later.le.1
      rw [Part.values_cons, ← block, ← rest, ← Graph.heldFrom_append inner.le.1 later.le.1,
        Graph.heldFrom_succ firstLast, Graph.heldAt_of_get? found]
      exact (zero_add _).trans (zero_add _)
  | @lastBlock block _ _ _ ih =>
      refine ih.trans ?_
      obtain ⟨condition, body⟩ := block
      have inside : Statement.walkBlocks [.mk condition body] = Statement.walkBody body := List.append_nil _
      have tests : testValues scope.groups [.mk condition body] = condition.values scope.groups := List.append_nil _
      rw [Part.values, Part.values, inside, tests]
      rfl
  | laterBlocks _ ih => exact ih
  | groupBlock known inner ih =>
      rw [Part.values_groupBlock known]
      exact Graph.held_new inner.le.1 ih
  | innerChoice notGroup _ ih =>
      rw [Part.values_plainBlock notGroup, Part.values_choice]
      exact ih
  | plainBlock notGroup _ inner ih =>
      rw [Part.values_plainBlock notGroup]
      exact (Graph.held_new inner.le.1 ih).trans (zero_add _)

end MissionGraph
