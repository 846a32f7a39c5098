import Mathlib.Data.List.Nodup
import MissionGraph.Proofs.Build.Notes
import MissionGraph.Proofs.Outline.Fields
import MissionGraph.Proofs.Outline.Statements

/-!
# Building a script copies its graph

If the script of a graph is built again, every new node is a copy of a node of the graph, or it is empty and
leads to one. The new numbers are followed part by part along the layout of the script: a stamp says for each
of them which node it stands for.
-/

namespace MissionGraph.Outline

open Mission (Data Factions)
open Script (Block Condition Group Statement)

/-- What a new node stands for: it is a copy of a node of the graph, or it only leads to a copy. -/
structure Stamp where
  number : NodeId
  id : NodeId
  copy : Bool

/-- The node under the new number is what the stamp says, if its children are renumbered. -/
def Stamp.Fits (built graph : Graph) (place : NodeId → NodeId) (stamp : Stamp) : Prop :=
  ∃ node, built.get? stamp.number = some node ∧
    if stamp.copy then graph.get? stamp.id = some ⟨node.content, node.children.map place⟩
    else ∃ child, node.forwardsTo? = some child ∧ place child = stamp.id

/-- The new number stands for the node: a stamp says so, or it is the number of the sub for the node. -/
inductive Means (scope : Scope) (stamps : List Stamp) (number id : NodeId) : Prop where
  | stamped (copy : Bool) (listed : ⟨number, id, copy⟩ ∈ stamps)
  | called (known : scope.subs.lookup (subName id) = some number)

theorem Means.mono {scope : Scope} {stamps others : List Stamp} {number id : NodeId}
    (means : Means scope stamps number id) (more : ∀ stamp ∈ stamps, stamp ∈ others) :
    Means scope others number id := by
  cases means with
  | stamped copy listed => exact .stamped copy (more _ listed)
  | called known => exact .called known

/-- The stamps are right for the new numbers, which copy the given nodes. -/
structure Mirrors (built graph : Graph) (scope : Scope) (stamps : List Stamp) (numbers copied : List NodeId) :
    Prop where
  numbers : (stamps.map Stamp.number).Perm numbers
  copied : ((stamps.filter Stamp.copy).map Stamp.id).Perm copied
  fits : ∀ place : NodeId → NodeId, (∀ number id, Means scope stamps number id → place number = id) →
    ∀ stamp ∈ stamps, stamp.Fits built graph place

variable {built graph : Graph} {scope : Scope} {stamps others : List Stamp}
  {numbers copied moreNumbers moreCopied : List NodeId} {number id : NodeId}

namespace Mirrors

theorem nil : Mirrors built graph scope [] [] [] :=
  ⟨.nil, .nil, nofun⟩

theorem append (first : Mirrors built graph scope stamps numbers copied)
    (second : Mirrors built graph scope others moreNumbers moreCopied) :
    Mirrors built graph scope (stamps ++ others) (numbers ++ moreNumbers) (copied ++ moreCopied) where
  numbers := by
    rw [List.map_append]
    exact first.numbers.append second.numbers
  copied := by
    rw [List.filter_append, List.map_append]
    exact first.copied.append second.copied
  fits := by
    intro place agrees stamp listed
    rcases List.mem_append.mp listed with inFirst | inSecond
    · refine first.fits place (fun number id means => agrees number id (means.mono fun _ => ?_)) stamp inFirst
      exact List.mem_append_left _
    · refine second.fits place (fun number id means => agrees number id (means.mono fun _ => ?_)) stamp inSecond
      exact List.mem_append_right _

/-- One more stamp, which fits if all numbers stand for what the stamps say. -/
theorem cons {stamp : Stamp} (rest : Mirrors built graph scope stamps numbers copied)
    (fits : ∀ place : NodeId → NodeId, (∀ number id, Means scope stamps number id → place number = id) →
      stamp.Fits built graph place) :
    Mirrors built graph scope (stamp :: stamps) (stamp.number :: numbers)
      (if stamp.copy then stamp.id :: copied else copied) where
  numbers := rest.numbers.cons _
  copied := by
    rw [List.filter_cons]
    split
    · exact rest.copied.cons _
    · exact rest.copied
  fits := by
    intro place agrees other listed
    have agreesRest (number id : NodeId) (means : Means scope stamps number id) : place number = id :=
      agrees number id (means.mono fun _ => List.mem_cons_of_mem _)
    rcases List.mem_cons.mp listed with rfl | later
    · exact fits place agreesRest
    · exact rest.fits place agreesRest other later

theorem map_eq_of_means {place : NodeId → NodeId}
    (agrees : ∀ number id, Means scope stamps number id → place number = id) {news children : List NodeId} (means : List.Forall₂ (Means scope stamps) news children) :
    news.map place = children := by
  induction means with
  | nil => rfl
  | cons here _ ih => rw [List.map_cons, agrees _ _ here, ih]

/-- A new node with the content of a node whose children stand for its children is a copy of it. -/
theorem copy {content : Content} {news children : List NodeId} (rest : Mirrors built graph scope stamps numbers copied)
    (found : built.get? number = some ⟨content, news⟩) (stored : graph.get? id = some ⟨content, children⟩)
    (means : List.Forall₂ (Means scope stamps) news children) :
    Mirrors built graph scope (⟨number, id, true⟩ :: stamps) (number :: numbers) (id :: copied) := by
  refine rest.cons fun place agrees => ⟨_, found, ?_⟩
  rw [if_pos rfl, map_eq_of_means agrees means]
  exact stored

/-- A new node that forwards to a number stands for the same node as the number. -/
theorem forward {node : Node} {child : NodeId} (rest : Mirrors built graph scope stamps numbers copied)
    (found : built.get? number = some node) (forwards : node.forwardsTo? = some child)
    (means : Means scope stamps child id) :
    Mirrors built graph scope (⟨number, id, false⟩ :: stamps) (number :: numbers) copied := by
  refine rest.cons fun place agrees => ⟨_, found, ?_⟩
  rw [if_neg Bool.false_ne_true]
  exact ⟨child, forwards, agrees _ _ means⟩

end Mirrors

/-- The numbers have stamps that are right, and the given one stands for the given node. -/
def Mirrored (built graph : Graph) (scope : Scope) (numbers copied : List NodeId) (number id : NodeId) : Prop :=
  ∃ stamps copy, Mirrors built graph scope stamps numbers copied ∧ ⟨number, id, copy⟩ ∈ stamps

theorem Mirrored.perm (mirrored : Mirrored built graph scope numbers copied number id) (same : copied.Perm moreCopied) :
    Mirrored built graph scope numbers moreCopied number id := by
  obtain ⟨stamps, copy, mirrors, listed⟩ := mirrored
  exact ⟨stamps, copy, ⟨mirrors.numbers, mirrors.copied.trans same, mirrors.fits⟩, listed⟩

/-- The numbers from the first one up to, but without, the last. -/
def span (first last : Nat) : List NodeId :=
  List.range' first (last - first)

theorem span_self (first : Nat) : span first first = [] := by
  rw [span, Nat.sub_self]
  rfl

theorem span_cons {first last : Nat} (less : first < last) : span first last = first :: span (first + 1) last := by
  rw [span, span, Nat.sub_add_eq, ← List.range'_succ, Nat.sub_add_cancel (Nat.sub_pos_of_lt less)]

theorem span_append {first middle last : Nat} (least : first ≤ middle) (most : middle ≤ last) :
    span first middle ++ span middle last = span first last := by
  have joined : first + (middle - first) = middle := by omega
  rw [span, span, span, show last - first = middle - first + (last - middle) by omega, ← List.range'_append_1, joined]

/-! ## What is known of the plan -/

/-- What is needed of a plan so that its script gives a copy of the graph: the scope has the groups of the plan
with the factions that nodes hold, all data is uniform and lists something, and a test for groups has the
nickname of such tests and leads to a node that is used only there. -/
structure Restores (plan : Plan) (graph : Graph) (scope : Scope) (parts : NodeId → List NodeId) : Prop where
  describes : plan.Describes graph
  stands : ∀ id node, plan.graph.get? id = some node → Stands graph plan.references plan.tests id node (parts id)
  groups : ∀ factions, Holds graph factions → factions.isEmpty = false →
    scope.groups.lookup (groupName plan.groups factions) = some factions
  uniform : ∀ id data children, graph.get? id = some ⟨.data data, children⟩ → data.Uniform
  wellFormed : ∀ id node, graph.get? id = some node → node.content.WellFormed
  branch : ∀ id nickname one two, graph.get? id = some ⟨.decision nickname, [one, two]⟩ → isBranch nickname = true →
    nickname = branchNickname ∧ graph.uses one ≤ 1

/-- A test for a group is for the group that the node names, and the node is used only there. -/
def Guards (plan : Plan) (graph : Graph) (test : Condition) (child : NodeId) : Prop :=
  ∀ name, test = .group name → plan.references.count child ≤ 1 ∧
    ∃ factions, offerGroup? graph child = some factions ∧ name = groupName plan.groups factions

/-- The block for a child with a test. -/
def Plan.blockFor (plan : Plan) (test : Condition) (child : NodeId) : Block Unit :=
  .mk test (plan.block child test.isGroup).statements

theorem blocks_eq (plan : Plan) {tests : List Condition} (shown : ∀ test ∈ tests, asTest test = test)
    (children : List NodeId) :
    blocks tests
        (List.zipWith (fun condition child => plan.block child condition.isGroup) (tests ++ [.otherwise]) children) =
      List.zipWith plan.blockFor (tests ++ [.otherwise]) children := by
  induction tests generalizing children with
  | nil =>
      cases children with
      | nil => simp [blocks]
      | cons child others => simp [blocks, Plan.blockFor, Condition.isGroup]
  | cons test rest ih =>
      obtain ⟨shownFirst, shownRest⟩ := List.forall_mem_cons.mp shown
      cases children with
      | nil => simp [blocks]
      | cons child others =>
          rw [List.cons_append, List.zipWith_cons_cons, List.zipWith_cons_cons, blocks, shownFirst, ih shownRest]
          rfl

variable {plan : Plan} {parts : NodeId → List NodeId}

namespace Restores

/-- The tests of a decision are those that are built as the same decision again. -/
theorem decision (restores : Restores plan graph scope parts) {nickname : String} {one two : NodeId}
    (found : graph.get? id = some ⟨.decision nickname, [one, two]⟩) :
    (testsFor plan.tests id).first.nickname? = some nickname ∧ Guards plan graph (testsFor plan.tests id).first one ∧
      ∀ second ∈ (testsFor plan.tests id).second, Guards plan graph second two := by
  have isTest := testsOf_eq restores.describes.planned.tests found
  rw [testsOf] at isTest
  split at isTest
  · rename_i isGroup
    obtain ⟨rfl, alone⟩ := restores.branch id nickname one two found isGroup
    split at isTest
    · rename_i factions offers
      rw [← Except.ok.inj isTest]
      refine ⟨rfl, ?_, fun second member => ?_⟩
      · rintro _ ⟨⟩
        rw [restores.describes.planned.count]
        exact ⟨alone, factions, offers, rfl⟩
      · obtain ⟨others, offersToo, rfl⟩ := Option.map_eq_some_iff.mp member
        split at offersToo
        · rename_i aloneToo
          rintro _ ⟨⟩
          exact ⟨aloneToo, others, offersToo, rfl⟩
        · cases offersToo
    · cases isTest
  · rw [← Except.ok.inj isTest]
    refine ⟨rfl, ?_, fun second member => absurd member (Option.not_mem_none second)⟩
    rintro _ ⟨⟩

/-- A data node of the graph is a node of the joined graph. -/
theorem get?_of_data (restores : Restores plan graph scope parts) {node : Node} {data : Data} {children : List NodeId}
    (found : plan.graph.get? id = some node) (foundData : graph.get? id = some ⟨.data data, children⟩) :
    node = ⟨.data data, children⟩ := by
  have stands := restores.stands id node found
  generalize parts id = decisions at stands
  cases stands with
  | same foundBefore => exact Option.some.inj (foundBefore.symm.trans foundData)
  | chain chain =>
      cases chain with
      | last foundBefore => cases foundBefore.symm.trans foundData
      | cons foundBefore _ _ => cases foundBefore.symm.trans foundData

/-- The fields of a data node are taken again; in a block for its group the group is there already. -/
theorem takes (restores : Restores plan graph scope parts) {data : Data} {children : List NodeId}
    (found : graph.get? id = some ⟨.data data, children⟩) (inGroupBlock : Bool) :
    Takes scope.groups { Data.empty with offerGroup := if inGroupBlock then offerGroup? graph id else none }
      (plan.fields data inGroupBlock) { data with implemented := true } := by
  have formed : data.WellFormed := restores.wellFormed _ _ found
  have named {value : Option Factions} (nonempty : ∀ factions ∈ value, Mission.NameList factions.names)
      (held : ∀ factions ∈ value, factions ∈ data.offerGroup.toList ++ data.hostileGroup.toList) :
      Names scope.groups (groupName plan.groups) value := by
    intro factions member
    have full : factions.isEmpty = false := List.isEmpty_eq_false_iff.mpr (nonempty factions member).1
    exact ⟨full, restores.groups factions ⟨id, _, found, held factions member⟩ full⟩
  have namesOffer := named formed.offerGroup fun factions member =>
    List.mem_append_left _ (Option.mem_toList.mpr member)
  have namesHostile := named formed.hostileGroup fun factions member =>
    List.mem_append_right _ (Option.mem_toList.mpr member)
  have isOffer : offerGroup? graph id = data.offerGroup := by
    rw [offerGroup?, found]
    exact filter_eq_self fun factions member => (namesOffer factions member).1
  rw [isOffer]
  refine takes_fields plan (restores.uniform _ _ _ found) (fun names member => ?_) namesOffer namesHostile inGroupBlock
  exact List.isEmpty_eq_false_iff.mpr (formed.zones names member).1

end Restores

/-! ## Calls and continuations -/

variable {cursor : NodeId} {first last : Nat}

/-- Calls lead from the node under the cursor to the subs for the called nodes. -/
theorem layout_calls {children : List NodeId} {node : Node} {rest : List (Statement Unit)}
    (layout : Layout built scope (.body cursor node (allStatements (children.map .call) ++ rest)) first last) :
    ∃ targets, List.Forall₂ (fun target child => scope.subs.lookup (subName child) = some target) targets children ∧
      Layout built scope (.body cursor ⟨node.content, node.children ++ targets⟩ rest) first last := by
  induction children generalizing node with
  | nil => exact ⟨[], .nil, by rw [List.append_nil]; exact layout⟩
  | cons child others ih =>
      cases layout with
      | @call _ _ _ _ target _ _ _ known later =>
          obtain ⟨targets, resolved, layoutRest⟩ := ih later
          refine ⟨target :: targets, .cons known resolved, ?_⟩
          rw [List.append_cons]
          exact layoutRest

/-- A data node is written with a first field that the node before it does not take. -/
def Stops (plan : Plan) (graph : Graph) (node : Node) (id : NodeId) : Prop :=
  ∀ data children, graph.get? id = some ⟨.data data, children⟩ →
    ∃ field others, plan.fields data false = field :: others ∧ node.takes field = false

theorem Restores.stops (restores : Restores plan graph scope parts) {content : Content} {front targets : List NodeId}
    {child : NodeId} (stored : ∃ node, plan.graph.get? child = some node)
    (continues : plan.continues ⟨content, front ++ [child]⟩ child = true) (same : targets.length = front.length) :
    Stops plan graph ⟨content, targets⟩ child := by
  intro data children found
  obtain ⟨node, foundJoined⟩ := stored
  obtain rfl := restores.get?_of_data foundJoined found
  have allowed := (Bool.and_eq_true_iff.mp continues).2
  rw [foundJoined] at allowed
  dsimp only [Node.data?] at allowed
  cases isFields : plan.fields data false with
  | nil =>
      rw [isFields] at allowed
      cases allowed
  | cons field others =>
      refine ⟨field, others, rfl, ?_⟩
      rw [isFields] at allowed
      cases content with
      | data before =>
          have several : decide (1 < (front ++ [child]).length) = !targets.isEmpty := by
            rw [List.length_append, ← same]
            cases targets <;> simp
          dsimp only at allowed
          rw [several] at allowed
          exact (Bool.not_eq_true' _).mp allowed
      | _ => rfl

/-- The statements of the node are laid out behind another node as a copy of all that they say. -/
def CopiedBehind (plan : Plan) (built graph : Graph) (scope : Scope) (parts : NodeId → List NodeId)
    (id : NodeId) : Prop :=
  ∀ cursor node first last, Layout built scope (.body cursor node (plan.draw id false).statements) first last →
    Stops plan graph node id → built.get? cursor = some (node.leadingTo first) ∧
      Mirrored built graph scope (span first last) ((plan.draw id false).written.flatMap parts) first id

/-- If the node under the cursor holds what a node says, it becomes a copy of the node. -/
theorem Restores.mirrored_below (restores : Restores plan graph scope parts) {node : Node}
    (found : plan.graph.get? id = some node) (plain : Plan.isTest node.content = false)
    (behind : ∀ child ∈ node.children, CopiedBehind plan built graph scope parts child)
    (layout : Layout built scope
      (.body cursor ⟨node.content, []⟩ (allStatements (plan.outlinesBelow id node))) first last) :
    Mirrored built graph scope (cursor :: span first last)
      (id :: ((plan.outlinesBelow id node).flatMap written).flatMap parts) cursor id := by
  have stored := restores.describes.get?_of_plain found plain
  rw [Plan.outlinesBelow, if_neg (by simp [plain])] at layout ⊢
  obtain ⟨content, children⟩ := node
  dsimp only at *
  rcases List.eq_nil_or_concat children with rfl | ⟨front, child, isConcat⟩
  · cases layout with
    | done foundCursor =>
        rw [span_self]
        exact ⟨_, true, Mirrors.nil.copy foundCursor stored .nil, List.mem_cons_self⟩
  · rw [List.concat_eq_append] at isConcat
    subst isConcat
    have last : child ∈ front ++ [child] := List.mem_append_right _ List.mem_cons_self
    have storedChild := restores.describes.joined.closed id child (Graph.child_of_get? found last)
    rw [List.dropLast_concat, List.getLast?_concat, Option.toList_some, List.map_singleton] at layout ⊢
    rw [allStatements_eq, List.flatMap_append, ← allStatements_eq, List.flatMap_singleton] at layout
    obtain ⟨targets, resolved, layoutLast⟩ := layout_calls layout
    have called {stamps : List Stamp} : List.Forall₂ (Means scope stamps) targets front :=
      resolved.imp fun _ _ known => .called known
    have noneWritten : (front.map Outline.call).flatMap written = [] := by
      simp [List.flatMap_map, written]
    rw [List.flatMap_append, noneWritten, List.nil_append, List.flatMap_singleton]
    rw [Plan.follow] at layoutLast ⊢
    split at layoutLast
    · rename_i continues
      obtain ⟨leads, stamps, copy, mirrors, listed⟩ := behind child last _ _ _ _ layoutLast
        (restores.stops storedChild continues resolved.length_eq)
      rw [if_pos continues]
      refine ⟨_, true, mirrors.copy leads stored ?_, List.mem_cons_self⟩
      exact List.rel_append called (.cons (.stamped copy listed) .nil)
    · rename_i stops
      rw [if_neg stops]
      cases layoutLast with
      | call known later =>
          cases later with
          | done foundCursor =>
              rw [span_self]
              refine ⟨_, true, Mirrors.nil.copy foundCursor stored ?_, List.mem_cons_self⟩
              exact List.rel_append called (.cons (.called known) .nil)

/-! ## Chains of decisions -/

/-- Two or more blocks behind a decision are an `if` of their own. -/
theorem layout_choice_of_rest {blocks : List (Block Unit)} (several : 2 ≤ blocks.length)
    (layout : Layout built scope (.rest blocks) first last) : Layout built scope (.choice blocks) first last := by
  cases layout with
  | lastBlock _ => exact absurd several (by simp)
  | laterBlocks inner => exact inner

/-- A block for the node is laid out as a copy of all that it says. -/
def CopiedBlock (plan : Plan) (built graph : Graph) (scope : Scope) (parts : NodeId → List NodeId)
    (child : NodeId) : Prop :=
  ∀ test first last, Layout built scope (.block (plan.blockFor test child)) first last → Guards plan graph test child →
    Mirrored built graph scope (span first last) ((plan.block child test.isGroup).written.flatMap parts) first child

/-- What is copied by blocks for the children with the tests. -/
def copiedBlocks (plan : Plan) (parts : NodeId → List NodeId) (tests : List Condition) (children : List NodeId) :
    List NodeId :=
  (List.zipWith (fun test child => (plan.block child test.isGroup).written.flatMap parts) tests children).flatten

/-- A new decision in front of the copies of its two ways is a copy too. -/
theorem mirrored_decision {nickname : String} {one two : NodeId} {middle : Nat} {oneCopied twoCopied : List NodeId}
    (stored : graph.get? id = some ⟨.decision nickname, [one, two]⟩)
    (found : built.get? first = some ⟨.decision nickname, [first + 1, middle]⟩)
    (least : first + 1 ≤ middle) (most : middle ≤ last)
    (oneWay : Mirrored built graph scope (span (first + 1) middle) oneCopied (first + 1) one)
    (otherWay : Mirrored built graph scope (span middle last) twoCopied middle two) :
    Mirrored built graph scope (span first last) (id :: (oneCopied ++ twoCopied)) first id := by
  obtain ⟨stamps, copy, mirrors, listed⟩ := oneWay
  obtain ⟨others, otherCopy, mirrorsOthers, listedOther⟩ := otherWay
  have both := (mirrors.append mirrorsOthers).copy found stored
    (.cons (.stamped copy (List.mem_append_left _ listed))
      (.cons (.stamped otherCopy (List.mem_append_right _ listedOther)) .nil))
  rw [span_append least most, ← span_cons (Nat.lt_of_lt_of_le least most)] at both
  exact ⟨_, true, both, List.mem_cons_self⟩

/-- A chain of decisions is built again as a copy of the chain and of all that its blocks say. -/
theorem Restores.mirrored_chain (restores : Restores plan graph scope parts) {conditions : List Condition}
    {children decisions : List NodeId}
    (chain : Chain graph plan.references plan.tests id conditions children decisions)
    (copied : ∀ child ∈ children, CopiedBlock plan built graph scope parts child)
    (layout : Layout built scope
      (.choice (List.zipWith plan.blockFor (conditions ++ [.otherwise]) children)) first last) :
    Mirrored built graph scope (span first last)
      (decisions ++ copiedBlocks plan parts (conditions ++ [.otherwise]) children) first id := by
  induction chain generalizing first with
  | @last id one two nickname found =>
      obtain ⟨named, guardsOne, guardsTwo⟩ := restores.decision found
      have second : ∃ test more, (testsFor plan.tests id).toList ++ [.otherwise] =
          (testsFor plan.tests id).first :: test :: more ∧ Guards plan graph test two := by
        rw [Tests.toList]
        cases isSecond : (testsFor plan.tests id).second with
        | none =>
            refine ⟨.otherwise, [], rfl, ?_⟩
            rintro _ ⟨⟩
        | some test => exact ⟨test, [.otherwise], rfl, guardsTwo test isSecond⟩
      obtain ⟨test, more, isTests, guardsSecond⟩ := second
      rw [isTests] at layout ⊢
      rw [List.zipWith_cons_cons, List.zipWith_cons_cons, List.zipWith_nil_right] at layout
      cases layout with
      | choice namedAgain foundFirst inner later =>
          cases namedAgain.symm.trans named
          cases later with
          | lastBlock innerLast =>
              have oneWay := copied one List.mem_cons_self _ _ _ inner guardsOne
              have otherWay := copied two (List.mem_cons_of_mem _ List.mem_cons_self) _ _ _ innerLast guardsSecond
              refine (mirrored_decision found foundFirst inner.le.1 innerLast.le.1 oneWay otherWay).perm ?_
              simp [copiedBlocks]
  | @cons id one next nickname conditions children decisions found alone rest ih =>
      obtain ⟨named, guardsOne, _⟩ := restores.decision found
      obtain ⟨copiedOne, copiedRest⟩ := List.forall_mem_cons.mp copied
      obtain ⟨several, _, enough⟩ := rest.lengths
      rw [List.cons_append, List.zipWith_cons_cons] at layout
      cases layout with
      | choice namedAgain foundFirst inner later =>
          cases namedAgain.symm.trans named
          have layoutRest := layout_choice_of_rest (by simp; omega) later
          have oneWay := copiedOne _ _ _ inner guardsOne
          have otherWay := ih copiedRest layoutRest
          refine (mirrored_decision found foundFirst inner.le.1 layoutRest.le.1 oneWay otherWay).perm ?_
          exact (List.perm_append_comm_assoc _ _ _).cons id

/-! ## Outlines -/

/-- The statements of the node are laid out from an empty node on, which may name the group that offers the
mission, as a copy of all that they say. -/
def CopiedHere (plan : Plan) (built graph : Graph) (scope : Scope) (parts : NodeId → List NodeId)
    (id : NodeId) : Prop :=
  ∀ cursor inGroupBlock first last, (inGroupBlock = true → (offerGroup? graph id).isSome = true) →
    Layout built scope (.body cursor
      ⟨.data { Data.empty with offerGroup := if inGroupBlock then offerGroup? graph id else none }, []⟩
      (plan.draw id inGroupBlock).statements) first last →
    Mirrored built graph scope (cursor :: span first last)
      ((plan.draw id inGroupBlock).written.flatMap parts) cursor id

/-- A new empty node in front of a copy stands for the same node. -/
theorem Mirrored.forward {next : NodeId} (mirrored : Mirrored built graph scope numbers copied next id)
    (found : built.get? number = some ⟨.data .empty, [next]⟩) :
    Mirrored built graph scope (number :: numbers) copied number id := by
  obtain ⟨stamps, copy, mirrors, listed⟩ := mirrored
  exact ⟨_, false, mirrors.forward found rfl (.stamped copy listed), List.mem_cons_self⟩

/-- Behind an empty node the statements of a node without data leave it empty. -/
theorem copiedHere_of_behind (noData : ∀ data children, graph.get? id ≠ some ⟨.data data, children⟩)
    (behind : CopiedBehind plan built graph scope parts id) : CopiedHere plan built graph scope parts id := by
  intro cursor inGroupBlock first last named layout
  cases inGroupBlock with
  | true =>
      obtain ⟨factions, offers⟩ := Option.isSome_iff_exists.mp (named rfl)
      obtain ⟨⟨content, children⟩, found, isNode⟩ := Option.bind_eq_some_iff.mp offers
      cases content with
      | data data => exact absurd found (noData data children)
      | _ => cases isNode
  | false =>
      obtain ⟨leads, mirrored⟩ := behind _ _ _ _ layout fun data children found => absurd found (noData data children)
      exact mirrored.forward leads

/-- A block for a node copies the node if its statements do, and if its `if` does where it is all that is
written. -/
theorem Restores.copiedBlock (restores : Restores plan graph scope parts)
    (here : CopiedHere plan built graph scope parts id)
    (inner : ∀ note blocks first last, (plan.draw id false).statements = [.choice note blocks] →
      Layout built scope (.choice blocks) first last →
      Mirrored built graph scope (span first last) ((plan.draw id false).written.flatMap parts) first id) :
    CopiedBlock plan built graph scope parts id := by
  intro test first last layout guards
  have nonempty := layout.le.2 rfl
  rw [Plan.blockFor] at layout
  generalize isBody : (plan.block id test.isGroup).statements = body at layout
  rw [Plan.block] at isBody ⊢
  cases layout with
  | @groupBlock name factions _ _ _ known body =>
      obtain ⟨alone, named, offers, rfl⟩ := guards name rfl
      obtain ⟨held, full⟩ := holds_of_offerGroup? offers
      rw [restores.groups named held full] at known
      cases known
      rw [if_neg (Nat.not_lt.mpr alone)] at isBody ⊢
      rw [span_cons nonempty]
      refine here first true _ _ (fun _ => by rw [offers]; rfl) ?_
      rw [if_pos rfl, offers]
      exact isBody ▸ body
  | innerChoice notGroup body =>
      rw [notGroup] at isBody ⊢
      split at isBody
      · cases isBody
      · rename_i alone
        rw [if_neg alone]
        exact inner _ _ _ _ isBody body
  | plainBlock notGroup _ body =>
      rw [notGroup] at isBody ⊢
      rw [span_cons nonempty]
      split at isBody
      · rename_i shared
        rw [if_pos shared]
        cases isBody
        cases body with
        | call known later =>
            cases later with
            | done found =>
                rw [span_self]
                exact ⟨_, false, Mirrors.nil.forward found rfl (.called known), List.mem_cons_self⟩
      · rename_i alone
        rw [if_neg alone]
        exact here first false _ _ nofun (isBody ▸ body)

namespace Restores

theorem parts_of_plain (restores : Restores plan graph scope parts) {node : Node}
    (found : plan.graph.get? id = some node) (plain : Plan.isTest node.content = false) : parts id = [id] := by
  have stands := restores.stands id node found
  generalize parts id = decisions at stands ⊢
  cases stands with
  | same _ => rfl
  | chain _ => cases plain

theorem copied_of_plain (restores : Restores plan graph scope parts) {node : Node}
    (found : plan.graph.get? id = some node) (plain : Plan.isTest node.content = false) (inGroupBlock : Bool) :
    (plan.draw id inGroupBlock).written.flatMap parts =
      id :: ((plan.outlinesBelow id node).flatMap written).flatMap parts := by
  rw [restores.describes.written_draw found, List.flatMap_cons, restores.parts_of_plain found plain]
  rfl

/-- A data node that says nothing is empty. -/
theorem isEmpty_of_silent (restores : Restores plan graph scope parts) {data : Data} {children : List NodeId}
    (found : graph.get? id = some ⟨.data data, children⟩) (silent : plan.dataStatements data false = []) :
    data.isEmpty = true := by
  obtain ⟨noFields, noMark⟩ := List.append_eq_nil_iff.mp silent
  have takes := restores.takes found false
  rw [List.map_eq_nil_iff.mp noFields] at takes
  have same := takes.eq_of_nil
  obtain ⟨weight, implemented, offer, hostile, zones, difficulty, failure, reward, objectives, offers, comms⟩ := data
  cases same
  cases implemented with
  | true => rfl
  | false => cases noMark

/-- No data node is written as an `if` alone. -/
theorem statements_ne_choice (restores : Restores plan graph scope parts) {data : Data} {children : List NodeId}
    (found : plan.graph.get? id = some ⟨.data data, children⟩) (note : Unit) (blocks : List (Block Unit)) :
    (plan.draw id false).statements ≠ [.choice note blocks] := by
  intro isChoice
  have stored := restores.describes.get?_of_plain found rfl
  have stays := restores.describes.planned.simple.folded _ _ stored
  rw [Plan.draw_step restores.describes.acyclic found rfl, statements] at isChoice
  cases own : plan.ownStatements (.data data) false with
  | cons statement others =>
      rw [own] at isChoice
      obtain rfl := (List.cons.inj isChoice).1
      rcases mem_ownStatements (own ▸ List.mem_cons_self) with
        ⟨_, _, _, _, impossible⟩ | ⟨_, _, impossible⟩ | ⟨_, _, impossible⟩ <;> cases impossible
  | nil =>
      rw [own] at isChoice
      cases children with
      | nil => cases isChoice
      | cons only others =>
          cases others with
          | nil =>
              have forwards : Node.forwardsTo? ⟨.data data, [only]⟩ = some only :=
                Node.forwardsTo?_eq_some_iff.mpr ⟨data, rfl, restores.isEmpty_of_silent stored own, rfl⟩
              rw [stays] at forwards
              cases forwards
          | cons two rest => cases isChoice

end Restores

/-- All ways in which the node is written are built again as copies. -/
structure Copied (plan : Plan) (built graph : Graph) (scope : Scope) (parts : NodeId → List NodeId)
    (id : NodeId) : Prop where
  behind : CopiedBehind plan built graph scope parts id
  here : CopiedHere plan built graph scope parts id
  block : CopiedBlock plan built graph scope parts id

namespace Restores

theorem copied_data (restores : Restores plan graph scope parts) {data : Data} {children : List NodeId}
    (found : plan.graph.get? id = some ⟨.data data, children⟩)
    (behind : ∀ child ∈ children, CopiedBehind plan built graph scope parts child) :
    Copied plan built graph scope parts id := by
  have stored := restores.describes.get?_of_plain found rfl
  have statements_eq (inGroupBlock : Bool) : (plan.draw id inGroupBlock).statements =
      plan.dataStatements data inGroupBlock ++ allStatements (plan.outlinesBelow id ⟨.data data, children⟩) := by
    rw [Plan.draw_step restores.describes.acyclic found rfl]
    rfl
  have here : CopiedHere plan built graph scope parts id := by
    intro cursor inGroupBlock first last _ layout
    rw [statements_eq] at layout
    rw [restores.copied_of_plain found rfl]
    exact restores.mirrored_below found rfl behind (layout.of_dataStatements (restores.takes stored inGroupBlock))
  refine ⟨fun cursor node first last layout stops => ?_, here, restores.copiedBlock here ?_⟩
  · obtain ⟨field, others, isFirst, refused⟩ := stops data children stored
    rw [statements_eq] at layout
    obtain ⟨leads, layoutBelow⟩ := layout.of_refused (restores.takes stored false) isFirst refused
    rw [restores.copied_of_plain found rfl, span_cons layoutBelow.le.1]
    exact ⟨leads, restores.mirrored_below found rfl behind layoutBelow⟩
  · exact fun note blocks _ _ isChoice => absurd isChoice (restores.statements_ne_choice found note blocks)

theorem copied_documentation (restores : Restores plan graph scope parts) {text : String} {children : List NodeId}
    (found : plan.graph.get? id = some ⟨.documentation text, children⟩)
    (behind : ∀ child ∈ children, CopiedBehind plan built graph scope parts child) :
    Copied plan built graph scope parts id := by
  have stored := restores.describes.get?_of_plain found rfl
  have statements_eq : (plan.draw id false).statements =
      .doc () text :: allStatements (plan.outlinesBelow id ⟨.documentation text, children⟩) := by
    rw [Plan.draw_step restores.describes.acyclic found rfl]
    rfl
  have copiedBehind : CopiedBehind plan built graph scope parts id := by
    intro cursor node first last layout _
    rw [statements_eq] at layout
    cases layout with
    | doc leads layoutBelow =>
        rw [restores.copied_of_plain found rfl, span_cons layoutBelow.le.1]
        exact ⟨leads, restores.mirrored_below found rfl behind layoutBelow⟩
  have here := copiedHere_of_behind
    (fun _ _ foundData => nomatch restores.get?_of_data found foundData) copiedBehind
  refine ⟨copiedBehind, here, restores.copiedBlock here fun note blocks _ _ isChoice => ?_⟩
  rw [statements_eq] at isChoice
  cases isChoice

theorem copied_test (restores : Restores plan graph scope parts) {node : Node}
    (found : plan.graph.get? id = some node) (test : Plan.isTest node.content = true)
    (blocks : ∀ child ∈ node.children, CopiedBlock plan built graph scope parts child) :
    Copied plan built graph scope parts id := by
  have chain := restores.describes.planned.chain (restores.stands id node found) test
  have shown (condition : Condition) (member : condition ∈ plan.testsAt id node.content) :
      asTest condition = condition :=
    (chain.tested restores.describes.planned condition member).asTest_eq
  have statements_eq (inGroupBlock : Bool) : (plan.draw id inGroupBlock).statements =
      [.choice () (List.zipWith plan.blockFor (plan.testsAt id node.content ++ [.otherwise]) node.children)] := by
    rw [restores.describes.draw_test found test, statements, blocks_eq plan shown]
  have copied_eq : (plan.draw id false).written.flatMap parts =
      parts id ++ copiedBlocks plan parts (plan.testsAt id node.content ++ [.otherwise]) node.children := by
    rw [restores.describes.written_draw found, List.flatMap_cons, Plan.outlinesBelow, if_pos test, List.flatMap_assoc,
      List.flatMap_def, List.map_zipWith]
    rfl
  have choice (first last : Nat) (layout : Layout built scope (.choice
      (List.zipWith plan.blockFor (plan.testsAt id node.content ++ [.otherwise]) node.children)) first last) :
      Mirrored built graph scope (span first last) ((plan.draw id false).written.flatMap parts) first id :=
    copied_eq ▸ restores.mirrored_chain chain blocks layout
  have copiedBehind : CopiedBehind plan built graph scope parts id := by
    intro cursor node first last layout _
    rw [statements_eq] at layout
    cases layout with
    | choiceBehind leads inner => exact ⟨leads, choice first last inner⟩
  have here : CopiedHere plan built graph scope parts id := by
    refine copiedHere_of_behind (fun data children foundData => ?_) copiedBehind
    obtain rfl := restores.get?_of_data found foundData
    cases test
  refine ⟨copiedBehind, here, restores.copiedBlock here fun note inner first last isChoice layout => ?_⟩
  rw [statements_eq] at isChoice
  cases isChoice
  exact choice first last layout

/-- Every node of the joined graph is built again as a copy, wherever it is written. -/
theorem copied_draw (restores : Restores plan graph scope parts) (stored : ∃ node, plan.graph.get? id = some node) :
    Copied plan built graph scope parts id := by
  induction id using restores.describes.acyclic.induction with
  | step id ih =>
      obtain ⟨node, found⟩ := stored
      have below (child : NodeId) (member : child ∈ node.children) : Copied plan built graph scope parts child := by
        have edge := Graph.child_of_get? found member
        exact ih child edge (restores.describes.joined.closed id child edge)
      obtain ⟨content, children⟩ := node
      cases content with
      | data data => exact restores.copied_data found fun child member => (below child member).behind
      | documentation text => exact restores.copied_documentation found fun child member => (below child member).behind
      | decision nickname => exact restores.copied_test found rfl fun child member => (below child member).block
      | choice conditions => exact restores.copied_test found rfl fun child member => (below child member).block

/-- Outlines that are laid out one after the other are built again as copies. -/
theorem exists_stamps (restores : Restores plan graph scope parts) {tops : List (NodeId × NodeId)}
    (stored : ∀ top ∈ tops, ∃ node, plan.graph.get? top.2 = some node)
    (layouts : Layouts built scope (tops.map fun top => (top.1, (plan.draw top.2 false).statements)) first last) :
    ∃ stamps, Mirrors built graph scope stamps (tops.map Prod.fst ++ span first last)
      ((tops.flatMap fun top => (plan.draw top.2 false).written).flatMap parts) ∧
        ∀ top ∈ tops, ∃ copy, ⟨top.1, top.2, copy⟩ ∈ stamps := by
  induction tops generalizing first with
  | nil =>
      cases layouts with
      | nil =>
          rw [span_self]
          exact ⟨[], .nil, nofun⟩
  | cons top rest ih =>
      obtain ⟨storedTop, storedRest⟩ := List.forall_mem_cons.mp stored
      cases layouts with
      | @cons _ _ _ _ middle _ head tail =>
          obtain ⟨stamps, copy, mirrors, listed⟩ := (restores.copied_draw storedTop).here _ false _ _ nofun head
          obtain ⟨others, mirrorsRest, listedRest⟩ := ih storedRest tail
          have both := mirrors.append mirrorsRest
          have numbers : (top.1 :: span first middle ++ (rest.map Prod.fst ++ span middle last)).Perm
              (top.1 :: (rest.map Prod.fst ++ span first last)) := by
            rw [← span_append head.le.1 tail.le]
            exact (List.perm_append_comm_assoc _ _ _).cons _
          rw [← List.flatMap_append] at both
          refine ⟨stamps ++ others, ⟨both.numbers.trans numbers, both.copied, both.fits⟩, ?_⟩
          refine List.forall_mem_cons.mpr ⟨⟨copy, List.mem_append_left _ listed⟩, fun other member => ?_⟩
          obtain ⟨otherCopy, listedOther⟩ := listedRest other member
          exact ⟨otherCopy, List.mem_append_right _ listedOther⟩

end Restores

/-! ## The script as a whole -/

/-- Numbers with stamps can be renumbered as their stamps say. -/
theorem exists_place (nodup : (stamps.map Stamp.number).Nodup) :
    ∃ place : NodeId → NodeId, ∀ stamp ∈ stamps, place stamp.number = stamp.id := by
  refine ⟨fun number => (stamps.find? (·.number == number)).elim number Stamp.id, fun stamp listed => ?_⟩
  cases isFirst : stamps.find? (·.number == stamp.number) with
  | none => exact absurd (beq_self_eq_true _) (List.find?_eq_none.mp isFirst stamp listed)
  | some other =>
      have same : other.number = stamp.number := eq_of_beq (List.find?_some isFirst :)
      have isStamp := List.inj_on_of_nodup_map nodup (List.mem_of_find?_eq_some isFirst) listed same
      show (stamps.find? (·.number == stamp.number)).elim stamp.number Stamp.id = stamp.id
      rw [isFirst, isStamp]
      rfl

/-- A graph whose numbers all have stamps folds to the graph that it copies. -/
theorem Mirrors.exists_folds (mirrors : Mirrors built graph scope stamps numbers copied) (nodup : numbers.Nodup)
    (once : copied.Nodup) (stored : ∀ id node, built.get? id = some node → id ∈ numbers)
    (called : ∀ number id, scope.subs.lookup (subName id) = some number → ∃ copy, ⟨number, id, copy⟩ ∈ stamps)
    (entry : ∃ copy, ⟨Graph.entry, Graph.entry, copy⟩ ∈ stamps) : ∃ place, built.Folds graph place := by
  obtain ⟨place, placed⟩ := exists_place (mirrors.numbers.nodup_iff.mpr nodup)
  have agrees (number id : NodeId) (means : Means scope stamps number id) : place number = id := by
    cases means with
    | stamped copy listed => exact placed _ listed
    | called known =>
        obtain ⟨copy, listed⟩ := called number id known
        exact placed _ listed
  have fits := mirrors.fits place agrees
  have stamped {id : NodeId} {node : Node} (found : built.get? id = some node) :
      ∃ stamp ∈ stamps, stamp.number = id ∧ if stamp.copy then
        graph.get? stamp.id = some ⟨node.content, node.children.map place⟩
        else ∃ child, node.forwardsTo? = some child ∧ place child = stamp.id := by
    obtain ⟨stamp, listed, rfl⟩ := List.mem_map.mp (mirrors.numbers.mem_iff.mpr (stored id node found))
    obtain ⟨other, foundOther, fitting⟩ := fits stamp listed
    rw [found] at foundOther
    cases foundOther
    exact ⟨stamp, listed, rfl, fitting⟩
  refine ⟨place, ?_, ?_, ?_⟩
  · obtain ⟨copy, listed⟩ := entry
    exact placed _ listed
  · intro id node _ found
    obtain ⟨stamp, listed, rfl, fitting⟩ := stamped found
    rw [placed stamp listed]
    split at fitting
    · exact .inr fitting
    · obtain ⟨child, forwards, same⟩ := fitting
      exact .inl ⟨child, forwards, same.symm⟩
  · -- a node that is kept is a copy, and no node is copied twice
    have keptStamp {id : NodeId} (kept : built.Kept id) : ∃ stamp ∈ stamps.filter Stamp.copy, stamp.number = id := by
      obtain ⟨_, node, found, stays⟩ := kept
      obtain ⟨stamp, listed, rfl, fitting⟩ := stamped found
      split at fitting
      · rename_i isCopy
        exact ⟨stamp, List.mem_filter.mpr ⟨listed, isCopy⟩, rfl⟩
      · obtain ⟨child, forwards, _⟩ := fitting
        cases stays.symm.trans forwards
    intro one two keptOne keptTwo same
    obtain ⟨first, listedFirst, rfl⟩ := keptStamp keptOne
    obtain ⟨second, listedSecond, rfl⟩ := keptStamp keptTwo
    rw [placed _ (List.mem_of_mem_filter listedFirst), placed _ (List.mem_of_mem_filter listedSecond)] at same
    rw [List.inj_on_of_nodup_map (mirrors.copied.nodup_iff.mpr once) listedFirst listedSecond same]

namespace Draft

/-- The numbers that the entry and the subs get if the script is built, each with the node that is written
there. -/
def tops (draft : Draft) : List (NodeId × NodeId) :=
  (draft.roots.zipIdx Graph.entry).map Prod.swap

theorem map_snd_tops (draft : Draft) : draft.tops.map Prod.snd = draft.roots := by
  rw [tops, List.map_map]
  exact List.zipIdx_map_fst _ _

theorem bodiesOf_script (describes : plan.Describes graph) :
    Script.bodiesOf (ofPlan plan).script =
      (ofPlan plan).tops.map fun top => (top.1, (plan.draw top.2 false).statements) := by
  rw [Script.bodiesOf, mains_script describes, subsOf_script describes, tops, roots, List.zipIdx_cons, List.map_cons,
    List.map_cons, List.zipIdx_map, List.map_map, List.map_map, List.map_map]
  refine congrArg₂ List.cons rfl (List.map_congr_left fun entry listed => ?_)
  obtain ⟨⟨id, outline⟩, number⟩ := entry
  show (number, outline.statements) = (number, (plan.draw id false).statements)
  rw [(subsOf plan).outline id outline (List.fst_mem_of_mem_zipIdx listed)]

/-- The numbers of the entry and the subs are the first ones. -/
theorem map_fst_tops (describes : plan.Describes graph) :
    (ofPlan plan).tops.map Prod.fst =
      span Graph.entry (Graph.entry + 1 + (Script.subsOf (ofPlan plan).script).length) := by
  have numbers := Script.map_fst_bodiesOf (ofPlan plan).script
  rw [bodiesOf_script describes, List.map_map] at numbers
  rw [span, Nat.add_assoc, Nat.add_sub_cancel_left, Nat.add_comm 1]
  exact numbers

/-- The name of a sub stands for the number under which its node is written. -/
theorem mem_tops_of_lookup (describes : plan.Describes graph)
    (known : (Script.scopeOf (ofPlan plan).script).subs.lookup (subName id) = some number) :
    (number, id) ∈ (ofPlan plan).tops := by
  obtain ⟨body, declared⟩ := Script.mem_subsOf_of_lookup known
  rw [subsOf_script describes] at declared
  obtain ⟨⟨⟨key, outline⟩, index⟩, listed, same⟩ := List.mem_map.mp declared
  obtain ⟨rfl, isName, _⟩ : index = number ∧ subName key = subName id ∧ outline.statements = body := by
    simpa using same
  obtain rfl := subName_injective isName
  rw [tops, roots, List.zipIdx_cons, List.map_cons, List.zipIdx_map, List.map_map]
  exact List.mem_cons_of_mem _ (List.mem_map.mpr ⟨_, listed, rfl⟩)

/-- A script is built as a graph that folds to the graph it has been written for. -/
theorem exists_folds (restores : Restores plan graph (Script.scopeOf (ofPlan plan).script) parts)
    (each : (plan.graph.ids.flatMap parts).Perm graph.ids) (laid : LaidOut (ofPlan plan).script built) :
    ∃ place, built.Folds graph place := by
  have describes := restores.describes
  have layouts := laid.layouts
  rw [bodiesOf_script describes] at layouts
  have stored (top : NodeId × NodeId) (member : top ∈ (ofPlan plan).tops) :
      ∃ node, plan.graph.get? top.2 = some node := by
    refine stored_of_mem_roots describes ?_
    rw [← map_snd_tops]
    exact List.mem_map_of_mem member
  obtain ⟨stamps, mirrors, listed⟩ := restores.exists_stamps stored layouts
  have written : (ofPlan plan).tops.flatMap (fun top => (plan.draw top.2 false).written) = (ofPlan plan).written := by
    rw [written_eq, ← map_snd_tops, List.flatMap_map]
  rw [map_fst_tops describes, span_append (by rw [Nat.add_assoc]; exact Nat.le_add_right _ _) layouts.le, written]
    at mirrors
  refine mirrors.exists_folds List.nodup_range' ?_ ?_ ?_ (listed _ List.mem_cons_self)
  · exact (((written_perm describes).flatMap_right parts).trans each).nodup_iff.mpr (Graph.nodup_ids _)
  · intro id node found
    obtain ⟨least, most⟩ := laid.stored id node found
    exact List.mem_range'_1.mpr ⟨least, by rwa [Nat.add_sub_cancel' (Nat.le_trans least (Nat.le_of_lt most))]⟩
  · intro number id known
    exact listed _ (mem_tops_of_lookup describes known)

end Draft

end MissionGraph.Outline
