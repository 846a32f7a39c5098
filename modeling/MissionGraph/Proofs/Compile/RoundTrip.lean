import MissionGraph.Proofs.Compile.Rewritten
import MissionGraph.Proofs.Compile.Scripts
import MissionGraph.Proofs.Graph.Isomorphism
import MissionGraph.Proofs.Outline.Copies

/-!
# From a graph to a script and back

A compiled graph is written as a script that is compiled to the same graph, up to the numbers of its nodes.
-/

namespace MissionGraph

open Mission (Data Factions Field)
open Number (Single)
open Outline (Plan offerGroup?)
open Script (Condition Pos Program Statement)

/-! ## Tests for groups are not shared -/

/-- If a value is in only one of several lists, all of them together hold it as often as that one. -/
theorem count_flatMap_le {ids : List NodeId} (nodup : ids.Nodup) {lists : NodeId → List NodeId} {value id : NodeId}
    (only : ∀ other ∈ ids, value ∈ lists other → other = id) :
    (ids.flatMap lists).count value ≤ (lists id).count value := by
  induction ids with
  | nil => exact Nat.zero_le _
  | cons head rest ih =>
      obtain ⟨notIn, nodupRest⟩ := List.nodup_cons.mp nodup
      obtain ⟨onlyHead, onlyRest⟩ := List.forall_mem_cons.mp only
      rw [List.flatMap_cons, List.count_append]
      by_cases isHere : value ∈ lists head
      · obtain rfl := onlyHead isHere
        have notLater : value ∉ rest.flatMap lists := by
          intro later
          obtain ⟨other, listed, member⟩ := List.mem_flatMap.mp later
          exact notIn (onlyRest other listed member ▸ listed)
        rw [List.count_eq_zero_of_not_mem notLater]
        exact Nat.le_refl _
      · rw [List.count_eq_zero_of_not_mem isHere, Nat.zero_add]
        exact ih nodupRest onlyRest

namespace RawGraph

variable {program : Program} {raw : Graph} {place : NodeId → NodeId}

/-- A kept number right behind a decision shares its place with no other number. -/
theorem eq_of_place (built : RawGraph program raw) (folds : raw.Folds raw.simplify place) {key : Nat}
    {nickname : String} {ways : List NodeId} (decision : raw.get? key = some ⟨.decision nickname, ways⟩)
    (kept : raw.Kept (key + 1)) {id : NodeId} (path : raw.Reaches Graph.entry id)
    (same : place id = place (key + 1)) : id = key + 1 := by
  induction id using built.proper.acyclic.induction with
  | step id ih =>
      obtain ⟨node, found⟩ := built.proper.stored path
      cases forwards : node.forwardsTo? with
      | none => exact folds.injective _ _ ⟨path, node, found, forwards⟩ kept same
      | some child =>
          -- a forwarding node would lead to the number, but only the decision does
          obtain ⟨data, isData, _, isOnly⟩ := Node.forwardsTo?_eq_some_iff.mp forwards
          have edge : raw.Child id child := Graph.child_of_get? found (by rw [isOnly]; exact List.mem_cons_self)
          have samePlace := folds.place_eq_of_forwards (Graph.folded_simplify built.proper) path found forwards
          have isChild := ih child edge (path.tail edge) (samePlace.symm.trans same)
          subst isChild
          obtain rfl := built.laidOut.parent_eq decision edge
          rw [decision] at found
          cases found
          cases isData

/-- In a script without conditions of that name, the first child of a test for groups is used only there. -/
theorem uses_of_branch (built : RawGraph program raw) (plain : Script.unbranched program = true) {id : NodeId}
    {nickname : String} {one two : NodeId} (found : raw.simplify.get? id = some ⟨.decision nickname, [one, two]⟩)
    (isTest : isBranch nickname = true) : nickname = branchNickname ∧ raw.simplify.uses one ≤ 1 := by
  obtain ⟨place, folds⟩ := Graph.exists_folds_simplify built.proper
  obtain ⟨key, middle, factions, test⟩ := built.groupTest plain folds found isTest
  refine ⟨test.isBranch, ?_⟩
  obtain ⟨rfl, rfl⟩ : one = place (key + 1) ∧ two = place middle := by simpa using test.children
  have edge : raw.Child key (key + 1) := Graph.child_of_get? test.decision List.mem_cons_self
  have otherEdge : raw.Child key middle := Graph.child_of_get? test.decision (List.mem_cons_of_mem _ List.mem_cons_self)
  have kept : raw.Kept (key + 1) := by
    have reached := test.reached.tail edge
    obtain ⟨node, foundFirst⟩ := built.proper.stored reached
    refine ⟨reached, node, foundFirst, Option.eq_none_iff_forall_ne_some.mpr fun child forwards => ?_⟩
    have silent := Graph.ForwardsTo.offerGroup?_eq_none ⟨node, foundFirst, forwards⟩
    rw [test.names] at silent
    cases silent
  have onlyParent (parent : NodeId) (isParent : place (key + 1) ∈ raw.simplify.children parent) :
      parent = place key := by
    obtain ⟨node, foundParent, member⟩ := Graph.child_iff.mp isParent
    obtain ⟨origin, ⟨reached, before, foundBefore, stays⟩, rfl⟩ :=
      folds.origin built.proper (Graph.folded_simplify built.proper) (Graph.reaches_simplify foundParent)
    rw [folds.get?_of_kept reached foundBefore stays] at foundParent
    cases foundParent
    obtain ⟨child, isChild, same⟩ := List.mem_map.mp member
    have childEdge := Graph.child_of_get? foundBefore isChild
    obtain rfl := built.eq_of_place folds test.decision kept (reached.tail childEdge) same
    rw [built.laidOut.parent_eq test.decision childEdge]
  have different : place middle ≠ place (key + 1) := fun same =>
    Nat.ne_of_gt test.apart (built.eq_of_place folds test.decision kept (test.reached.tail otherEdge) same)
  have notEntry : place (key + 1) ≠ Graph.entry := by
    intro isEntry
    have simple := Graph.simple_simplify built.proper
    exact simple.not_child_entry (isEntry ▸ Graph.child_of_get? found List.mem_cons_self)
  have counted := count_flatMap_le (Graph.nodup_ids raw.simplify) fun parent _ => onlyParent parent
  rw [test.isPlace, Graph.children_of_get? found] at counted
  rw [Graph.uses, if_neg notEntry]
  simpa [List.count_cons, different] using counted

end RawGraph

/-! ## All values of a compiled graph have words -/

/-- All numbers in the fields of the statements are finite. -/
def Script.finite {α : Type} (statements : List (Statement α)) : Bool :=
  (Statement.walkBody statements).all fun
    | .field _ field => field.numbers.all Single.isFinite
    | _ => true

theorem Mission.Data.mem_numbers_put {data : Data} {factions : Factions} {field : Field} {number : Single}
    (member : number ∈ (data.put factions field).numbers) : number ∈ data.numbers ∨ number ∈ field.numbers := by
  cases field with
  | comm value =>
      rw [put, numbers, List.flatMap_append, ← List.append_assoc] at member
      exact (List.mem_append.mp member).imp_right fun isNew => by simpa [Field.numbers] using isNew
  | difficulty value =>
      rcases List.mem_append.mp member with isNew | older
      · exact .inr (by simpa [put, Field.numbers] using isNew)
      · exact .inl (List.mem_append_right _ older)
  | _ => exact .inl member

/-- The numbers of a graph are finite if those of its script are. -/
theorem invariant_finite {α : Type} (scope : Scope) {script : List (Statement α)}
    (finite : Script.finite script = true) :
    Invariant scope (Statement.walkBody script) fun node =>
      ∀ number ∈ node.content.numbers, number.isFinite = true where
  empty := nofun
  offered := fun _ _ _ => nofun
  documentation := fun _ _ _ => nofun
  decision := fun _ _ _ _ _ _ _ _ _ => nofun
  put := by
    intro note field data children factions listed _ _ older number member
    rcases Data.mem_numbers_put member with isOld | isNew
    · exact older number isOld
    · exact List.all_eq_true.mp (List.all_eq_true.mp finite _ listed) number isNew
  missing := fun _ _ older => older
  leading := fun _ _ _ older => older

/-- No decision of a graph is named like the test for a group in a script. -/
theorem invariant_notGroup (scope : Scope) {program : Program} (formed : Script.WellFormed program) :
    Invariant scope (Statement.walkBody program) fun node => node.content ≠ .decision "group" where
  empty := nofun
  offered := fun _ _ _ => nofun
  documentation := fun _ _ _ => nofun
  decision := by
    rintro note blocks block nickname one two listed member tested ⟨⟩
    have conditionFormed := Script.condition_wellFormed (formed _ listed) member
    cases isCondition : block.condition with
    | named name =>
        rw [isCondition] at tested conditionFormed
        cases tested
        exact absurd conditionFormed (by decide)
    | group name =>
        rw [isCondition] at tested
        exact absurd (Option.some.inj tested) (by decide)
    | otherwise =>
        rw [isCondition] at tested
        cases tested
  put := fun _ _ _ _ _ _ _ _ _ => nofun
  missing := fun _ _ _ => nofun
  leading := fun _ _ _ other => other

/-- Content from a script can be written again if its numbers are finite and it is not named like the test for
a group. -/
theorem Content.WellFormed.writable {content : Content} (formed : content.WellFormed)
    (finite : ∀ number ∈ content.numbers, number.isFinite = true) (notGroup : content ≠ .decision "group") :
    content.Writable := by
  cases content with
  | data data =>
      obtain ⟨inDifficulty, inComms⟩ := List.forall_mem_append.mp finite
      have formed : data.WellFormed := formed
      refine ⟨formed.weight, fun factions member => (formed.offerGroup factions member).2,
        fun factions member => (formed.hostileGroup factions member).2,
        fun names member => (formed.zones names member).2,
        fun value member => ?_, formed.failure, formed.reward, formed.objectives, formed.offers, fun value member => ?_⟩
      · refine Bool.and_eq_true_iff.mpr ⟨formed.difficulty value member, List.all_eq_true.mpr fun number listed => ?_⟩
        exact inDifficulty number (List.mem_flatMap.mpr ⟨value, Option.mem_toList.mpr member, listed⟩)
      · refine Bool.and_eq_true_iff.mpr ⟨formed.comms value member, List.all_eq_true.mpr fun number listed => ?_⟩
        exact inComms number (List.mem_flatMap.mpr ⟨value, member, listed⟩)
  | decision nickname =>
      have other : nickname ≠ "group" := by
        rintro rfl
        exact notGroup rfl
      exact Bool.and_eq_true_iff.mpr ⟨formed, bne_iff_ne.mpr other⟩
  | documentation text => exact formed
  | choice tests => exact formed

/-- A compiled graph can be written again if the numbers of its script are finite. -/
theorem RawGraph.writable {program : Program} {raw : Graph} (built : RawGraph program raw)
    (finite : Script.finite program = true) {id : NodeId} {node : Node} (found : raw.simplify.get? id = some node) :
    node.content.Writable :=
  (built.compiled.wellFormed id node found).writable
    (built.forall_simplified (invariant_finite _ finite) (fun _ _ _ holds => holds) found)
    (built.forall_simplified (invariant_notGroup _ built.wellFormed) (fun _ _ _ holds => holds) found)

/-! ## Writing a graph and compiling it again -/

namespace Graph

variable {graph loaded : Graph}

theorem uses_of_nodes (same : loaded.nodes = graph.nodes) (id : NodeId) : loaded.uses id = graph.uses id := by
  obtain ⟨nodes, next⟩ := graph
  obtain ⟨_, other⟩ := loaded
  cases same
  rfl

theorem Isomorphism.of_nodes {other : Graph} {renumber : NodeId → NodeId}
    (isomorphic : loaded.Isomorphism other renumber) (same : loaded.nodes = graph.nodes) :
    graph.Isomorphism other renumber := by
  obtain ⟨nodes, next⟩ := graph
  obtain ⟨_, other⟩ := loaded
  cases same
  obtain ⟨entry, node, injective, surjective⟩ := isomorphic
  exact ⟨entry, node, injective, surjective⟩

end Graph

open Outline (Draft Restores groupName)

/-- In the script of a graph the name for factions that a node holds stands for these factions. -/
theorem Outline.Draft.lookup_groupName {plan : Plan} {graph : Graph} (describes : plan.Describes graph)
    (writable : ∀ id node, graph.get? id = some node → node.content.Writable) {factions : Factions}
    (held : Holds graph factions) (nonempty : factions.isEmpty = false) :
    (Script.scopeOf (ofPlan plan).script).groups.lookup (groupName plan.groups factions) = some factions := by
  obtain ⟨group, member, isName, sameText⟩ := Outline.exists_group held nonempty
  have same : group.factions = factions.names :=
    listText_injective (isName_of_holds writable (holds_of_mem_groups member).1) (isName_of_holds writable held)
      sameText
  rw [← describes.groups] at member isName
  rw [isName, lookup_group describes member, same]

/-- What is needed so that the script of a compiled graph gives a copy of it. -/
theorem RawGraph.exists_restores {program : Program} {raw loaded : Graph} (built : RawGraph program raw)
    (plain : Script.unbranched program = true) (same : loaded.nodes = raw.simplify.nodes)
    (writable : ∀ id node, loaded.get? id = some node → node.content.Writable) {plan : Plan}
    (describes : plan.Describes loaded) :
    ∃ parts, Restores plan loaded (Script.scopeOf (Draft.ofPlan plan).script) parts ∧
      (plan.graph.ids.flatMap parts).Perm loaded.ids := by
  obtain ⟨parts, stands, each⟩ := describes.joined.parts
  have found_iff := Graph.get?_of_nodes same
  refine ⟨parts, ⟨describes, stands, fun _ => Draft.lookup_groupName describes writable, ?_, ?_, ?_⟩, each⟩
  · intro id data children found
    have uniform := built.forall_simplified (invariant_uniform _ _) (fun _ _ _ holds => holds)
      (found_iff id ▸ found)
    exact uniform data rfl
  · exact fun id node found => built.compiled.wellFormed id node (found_iff id ▸ found)
  · intro id nickname one two found isTest
    rw [Graph.uses_of_nodes same]
    exact built.uses_of_branch plain (found_iff id ▸ found) isTest

/-- A compiled graph is written as a script, and the script is compiled to the same graph up to the numbers of
the nodes, if no condition is spelled like the tests for groups and all numbers are finite. -/
theorem exists_isomorphism_recompile {source : String} {program : Program} {graph : Graph}
    (parsed : Script.parse source = .ok program) (plain : Script.unbranched program = true)
    (finite : Script.finite program = true) (success : (compile source).result = .ok graph) (width : Nat) :
    ∃ text again renumber, Outline.decompile graph.records width = .ok text ∧ (compile text).result = .ok again ∧
      graph.Isomorphism again renumber := by
  obtain ⟨known, warnings, raw, parsedAgain, checked, built, rfl⟩ := compile_eq_ok_iff.mp success
  obtain rfl : program = known := Except.ok.inj (parsed.symm.trans parsedAgain)
  have isRaw := rawGraph_of_parse parsed checked built
  have compiled := isRaw.compiled
  obtain ⟨loaded, loads, sameNodes⟩ := Graph.ofRecords_records compiled.proper compiled.wellFormed
  have simple := compiled.simple.of_nodes sameNodes
  have found_iff := Graph.get?_of_nodes sameNodes
  have writable (id : NodeId) (node : Node) (found : loaded.get? id = some node) : node.content.Writable :=
    isRaw.writable finite (found_iff id ▸ found)
  -- the records give a script
  have sighted (id : NodeId) : ¬ loaded.BlindTest id :=
    fun blind => isRaw.not_blindTest plain id ((Graph.blindTest_of_nodes sameNodes).mp blind)
  obtain ⟨plan, planned⟩ := (Outline.exists_plan_iff simple fun id node found =>
    compiled.sound id node (found_iff id ▸ found)).1.mpr sighted
  have describes := Outline.describes_of_ofGraph simple.proper (Graph.plain_of_ofRecords loads) planned
  rw [simple.simplify_eq] at describes
  have decompiles : Outline.decompile raw.simplify.records width = .ok ((Draft.ofPlan plan).text width) :=
    Outline.decompile_eq_ok_iff.mpr ⟨loaded, plan, loads, planned, rfl⟩
  -- the script is built as a graph that folds to the loaded one
  obtain ⟨rewritten, againWarnings, rebuilt, reparsed, isScript, rechecked, builtAgain⟩ :=
    Draft.exists_rawGraph describes writable width
  have isRawAgain := rawGraph_of_parse reparsed rechecked builtAgain
  have laid := isRawAgain.laidOut.erase
  rw [isScript] at laid
  obtain ⟨parts, restores, each⟩ := isRaw.exists_restores plain sameNodes writable describes
  obtain ⟨place, folds⟩ := Draft.exists_folds restores each laid
  obtain ⟨other, foldsAgain⟩ := Graph.exists_folds_simplify isRawAgain.proper
  obtain ⟨renumber, isomorphic⟩ := Graph.exists_isomorphism isRawAgain.proper folds simple.folded simple.reached
    foldsAgain (Graph.folded_simplify isRawAgain.proper) fun _ _ => Graph.reaches_simplify
  refine ⟨_, rebuilt.simplify, renumber, decompiles, ?_, isomorphic.of_nodes sameNodes⟩
  exact compile_eq_ok_iff.mpr ⟨rewritten, againWarnings, rebuilt, reparsed, rechecked, builtAgain, rfl⟩

/-- A script with two groups of the same factions, tests of both kinds, and a sub that is called from several
places. -/
def withSharedSub : String :=
  "group A x; group B x;
  if c call s;
  elif group(A) reward_text 1, r; call s; call s;
  elif group(B) doc d;
  else err_unimplemented;
  end
  sub s comm_sequence e, player, 0, 1.5, 3, target, m; end"

/-- The graph of this script is written and compiled again. -/
theorem exists_isomorphism_recompile_withSharedSub : ∃ program graph,
    Script.parse withSharedSub = .ok program ∧ Script.unbranched program = true ∧ Script.finite program = true ∧
      (compile withSharedSub).result = .ok graph ∧
      ∃ text again renumber, Outline.decompile graph.records 4 = .ok text ∧ (compile text).result = .ok again ∧
        graph.Isomorphism again renumber := by
  have evaluated : (do
      let program ← (Script.parse withSharedSub).toOption
      let _ ← (compile withSharedSub).result.toOption
      return Script.unbranched program && Script.finite program) = some true := by
    decide +kernel
  obtain ⟨program, parsed, evaluated⟩ := Success.exists_of_toOption_bind evaluated
  obtain ⟨graph, success, evaluated⟩ := Success.exists_of_toOption_bind evaluated
  obtain ⟨plain, finite⟩ := Bool.and_eq_true_iff.mp (Option.some.inj evaluated)
  exact ⟨program, graph, parsed, plain, finite, success,
    exists_isomorphism_recompile parsed plain finite success 4⟩

end MissionGraph
