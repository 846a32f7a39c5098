import MissionGraph.Outline.Script
import MissionGraph.Proofs.Build.Places
import MissionGraph.Proofs.Outline.Plans
import MissionGraph.Proofs.Play.Simplified
import MissionGraph.Proofs.Record.Decoding

/-!
# Scripts of compiled graphs

A compiled graph can be written as a script unless a decision has the nickname of the tests for groups and
its first child names no group. In a script without conditions of that name, the first child of a test for
groups is the first node of the block of the group and names the group.
-/

namespace MissionGraph

open Mission (Data Factions)
open Outline (Plan offerGroup? testsOf)
open Script (Program)

namespace RawGraph

variable {program : Program} {raw : Graph}

/-- The groups of a script that has been read are not empty. -/
theorem isEmpty_of_lookup (built : RawGraph program raw) {name : String} {factions : Factions}
    (known : (Script.scopeOf program).groups.lookup name = some factions) : factions.isEmpty = false :=
  List.isEmpty_eq_false_iff.mpr (Script.nameList_of_lookup built.wellFormed known).1

/-- What a test for groups in the simplified graph comes from: a decision with the block for a group right
behind it, which starts with a node that names the group. -/
structure GroupTest (raw : Graph) (place : NodeId → NodeId) (id : NodeId) (nickname : String)
    (children : List NodeId) (key middle : Nat) (factions : Factions) : Prop where
  isBranch : nickname = branchNickname
  isPlace : place key = id
  children : children = [place (key + 1), place middle]
  apart : key + 1 < middle
  reached : raw.Reaches Graph.entry key
  decision : raw.get? key = some ⟨.decision nickname, [key + 1, middle]⟩
  names : offerGroup? raw (key + 1) = some factions

/-- In a script without conditions of that name, every test for groups comes from the block for a group. -/
theorem groupTest (built : RawGraph program raw) (plain : Script.unbranched program = true) {place : NodeId → NodeId}
    (folds : raw.Folds raw.simplify place) {id : NodeId} {nickname : String} {children : List NodeId}
    (found : raw.simplify.get? id = some ⟨.decision nickname, children⟩) (isTest : isBranch nickname = true) :
    ∃ key middle factions, GroupTest raw place id nickname children key middle factions := by
  obtain ⟨key, ⟨reached, before, foundBefore, stays⟩, rfl⟩ :=
    folds.origin built.proper (Graph.folded_simplify built.proper) (Graph.reaches_simplify found)
  have renumbered := folds.get?_of_kept reached foundBefore stays
  rw [found] at renumbered
  obtain ⟨content, olds⟩ := before
  cases renumbered
  obtain ⟨note, blocks, ⟨condition, body⟩, middle, listed, member, named, rfl, layout⟩ :=
    built.laidOut.decision foundBefore
  cases condition with
  | named name =>
      cases named
      have notTest := Script.isBranch_of_unbranched plain listed _ member _ rfl
      rw [isTest] at notTest
      cases notTest
  | otherwise => cases named
  | group name =>
      cases named
      obtain ⟨factions, data, following, known, foundFirst, offered⟩ := BlockAt.offerGroup ⟨_, layout⟩
      refine ⟨key, middle, factions, rfl, rfl, rfl, layout.le.2 rfl, reached, foundBefore, ?_⟩
      rw [Graph.offerGroup?_of_get? foundFirst]
      simp [Node.data?, offered, built.isEmpty_of_lookup known]

/-- In a script without conditions of that name, a test for groups leads to a node that names its group. -/
theorem offerGroup_of_branch (built : RawGraph program raw) (plain : Script.unbranched program = true)
    {id : NodeId} {nickname : String} {children : List NodeId}
    (found : raw.simplify.get? id = some ⟨.decision nickname, children⟩) (isTest : isBranch nickname = true) :
    ∃ one two, children = [one, two] ∧ (offerGroup? raw.simplify one).isSome = true := by
  obtain ⟨place, folds⟩ := Graph.exists_folds_simplify built.proper
  obtain ⟨key, middle, factions, test⟩ := built.groupTest plain folds found isTest
  refine ⟨place (key + 1), place middle, test.children, ?_⟩
  have reachedFirst := test.reached.tail (Graph.child_of_get? test.decision List.mem_cons_self)
  rw [(folds.isSome_offerGroup?_iff built.proper (Graph.folded_simplify built.proper) reachedFirst), test.names]
  exact .inl rfl

end RawGraph

/-- The decision tests for groups, and its first child names none. -/
def Graph.BlindTest (graph : Graph) (id : NodeId) : Prop :=
  ∃ nickname one two, graph.get? id = some ⟨.decision nickname, [one, two]⟩ ∧ isBranch nickname = true ∧
    offerGroup? graph one = none

namespace Outline

variable {graph : Graph}

theorem ofGraph_eq_error_iff {fault : GraphFault} :
    Plan.ofGraph graph = .error fault ↔
      Outline.tests graph.simplify (groups graph.simplify) (graph.simplify.references Graph.entry) = .error fault :=
  Success.map_eq_error_iff

/-- Without a plan there is a decision without tests. -/
theorem exists_testsOf_eq_error {fault : GraphFault} (failure : Plan.ofGraph graph = .error fault) :
    ∃ id nickname children, graph.simplify.get? id = some ⟨.decision nickname, children⟩ ∧
      testsOf graph.simplify (groups graph.simplify) (graph.simplify.references Graph.entry) id nickname children =
        .error fault := by
  obtain ⟨⟨id, nickname, children⟩, member, failed⟩ :=
    Success.exists_of_mapM_eq_error (ofGraph_eq_error_iff.mp failure)
  exact ⟨id, nickname, children, mem_decisions_iff.mp member, Success.map_eq_error_iff.mp failed⟩

/-- With a plan all decisions have tests. -/
theorem exists_testsOf_eq_ok {plan : Plan} (success : Plan.ofGraph graph = .ok plan) {id : NodeId}
    {nickname : String} {children : List NodeId}
    (found : graph.simplify.get? id = some ⟨.decision nickname, children⟩) :
    ∃ tests, testsOf graph.simplify (groups graph.simplify) (graph.simplify.references Graph.entry) id nickname
      children = .ok tests := by
  obtain ⟨tests, listed, _⟩ := Success.bind_eq_ok_iff.mp success
  exact exists_tests_iff.mp ⟨tests, listed⟩ id nickname children found

/-- The tests of a decision with two children can be told unless it is a blind test for groups. -/
theorem testsOf_eq_error_iff (groups : List Script.Group) (references : References) {id : NodeId}
    {nickname : String} {one two : NodeId} (found : graph.get? id = some ⟨.decision nickname, [one, two]⟩)
    {fault : GraphFault} :
    testsOf graph groups references id nickname [one, two] = .error fault ↔
      graph.BlindTest id ∧ fault = .invalidBranch id := by
  have blind_iff : graph.BlindTest id ↔ isBranch nickname = true ∧ offerGroup? graph one = none := by
    constructor
    · rintro ⟨_, _, _, foundAgain, isTest, unnamed⟩
      rw [found] at foundAgain
      cases foundAgain
      exact ⟨isTest, unnamed⟩
    · exact fun ⟨isTest, unnamed⟩ => ⟨nickname, one, two, found, isTest, unnamed⟩
  rw [blind_iff, testsOf]
  cases isTest : isBranch nickname with
  | false => simp
  | true =>
      cases named : offerGroup? graph one with
      | some factions => simp
      | none => simp [eq_comm]

/-- A simple graph whose decisions have two children has a plan exactly if none of them is a blind test for
groups; otherwise such a test is the fault. -/
theorem exists_plan_iff (simple : graph.Simple) (sound : ∀ id node, graph.get? id = some node → node.Sound) :
    ((∃ plan, Plan.ofGraph graph = .ok plan) ↔ ∀ id, ¬ graph.BlindTest id) ∧
      ∀ fault, Plan.ofGraph graph = .error fault → ∃ id, graph.BlindTest id ∧ fault = .invalidBranch id := by
  have failing (fault : GraphFault) (failure : Plan.ofGraph graph = .error fault) :
      ∃ id, graph.BlindTest id ∧ fault = .invalidBranch id := by
    obtain ⟨id, nickname, children, found, failed⟩ := exists_testsOf_eq_error failure
    rw [simple.simplify_eq] at found failed
    obtain ⟨one, two, rfl⟩ := List.length_eq_two.mp (show children.length = 2 from sound _ _ found)
    exact ⟨id, (testsOf_eq_error_iff _ _ found).mp failed⟩
  refine ⟨⟨?_, fun sighted => ?_⟩, failing⟩
  · rintro ⟨plan, success⟩ id blind
    have isBlind := blind
    obtain ⟨nickname, one, two, found, _⟩ := isBlind
    obtain ⟨tests, told⟩ := exists_testsOf_eq_ok success (simple.simplify_eq.symm ▸ found)
    rw [simple.simplify_eq, (testsOf_eq_error_iff _ _ found).mpr ⟨blind, rfl⟩] at told
    cases told
  · cases planned : Plan.ofGraph graph with
    | ok plan => exact ⟨plan, rfl⟩
    | error fault =>
        obtain ⟨id, blind, _⟩ := failing fault planned
        exact absurd blind (sighted id)

end Outline

namespace Graph

/-- What is known of the stored nodes does not depend on the next unused number. -/
theorem Simple.of_nodes {graph loaded : Graph} (simple : graph.Simple) (same : loaded.nodes = graph.nodes) :
    loaded.Simple := by
  obtain ⟨nodes, next⟩ := graph
  obtain ⟨_, other⟩ := loaded
  cases same
  obtain ⟨⟨entry, closed, acyclic⟩, folded, reached⟩ := simple
  exact ⟨⟨entry, closed, acyclic⟩, folded, reached⟩

theorem get?_of_nodes {graph loaded : Graph} (same : loaded.nodes = graph.nodes) (id : NodeId) :
    loaded.get? id = graph.get? id := by
  rw [get?, same]
  rfl

theorem blindTest_of_nodes {graph loaded : Graph} (same : loaded.nodes = graph.nodes) {id : NodeId} :
    loaded.BlindTest id ↔ graph.BlindTest id := by
  simp only [BlindTest, offerGroup?, get?_of_nodes same]

theorem Compiled.simple {graph : Graph} (compiled : graph.Compiled) : graph.Simple :=
  ⟨compiled.proper, compiled.folded, compiled.reached⟩

end Graph

/-- A script without conditions that are spelled like the tests for groups has no blind tests. -/
theorem RawGraph.not_blindTest {program : Program} {raw : Graph} (built : RawGraph program raw)
    (plain : Script.unbranched program = true) (id : NodeId) : ¬ raw.simplify.BlindTest id := by
  rintro ⟨nickname, one, two, found, isTest, unnamed⟩
  obtain ⟨first, second, ⟨⟩, named⟩ := built.offerGroup_of_branch plain found isTest
  rw [unnamed] at named
  cases named

/-- A compiled graph can be written as a script exactly if none of its decisions is a blind test for groups,
which is the only fault that can come up. A script without conditions that are spelled like the tests for
groups has no blind tests. -/
theorem decompile_compiled_iff {source : String} {program : Program} {graph : Graph}
    (parsed : Script.parse source = .ok program) (success : (compile source).result = .ok graph) (width : Nat) :
    ((∃ text, Outline.decompile graph.records width = .ok text) ↔ ∀ id, ¬ graph.BlindTest id) ∧
      (∀ fault, Outline.decompile graph.records width = .error fault →
        ∃ id, graph.BlindTest id ∧ fault = .invalidBranch id) ∧
      (Script.unbranched program = true → ∀ id, ¬ graph.BlindTest id) := by
  obtain ⟨known, warnings, raw, parsedAgain, checked, built, rfl⟩ := compile_eq_ok_iff.mp success
  obtain rfl : program = known := Except.ok.inj (parsed.symm.trans parsedAgain)
  have isRaw := rawGraph_of_parse parsed checked built
  have compiled := isRaw.compiled
  obtain ⟨loaded, loads, sameNodes⟩ := Graph.ofRecords_records compiled.proper compiled.wellFormed
  have simple := compiled.simple.of_nodes sameNodes
  have sound (id : NodeId) (node : Node) (found : loaded.get? id = some node) : node.Sound :=
    compiled.sound id node (Graph.get?_of_nodes sameNodes id ▸ found)
  have decompiles : Outline.decompile raw.simplify.records width =
      (Plan.ofGraph loaded).map fun plan => (Outline.Draft.ofPlan plan).text width := by
    rw [Outline.decompile, loads]
    rfl
  obtain ⟨planned, failing⟩ := Outline.exists_plan_iff simple sound
  simp only [Graph.blindTest_of_nodes sameNodes] at planned failing
  rw [decompiles]
  refine ⟨?_, ?_, ?_⟩
  · rw [← planned]
    simp [Success.map_eq_ok_iff]
  · intro fault failed
    exact failing fault (Success.map_eq_error_iff.mp failed)
  · exact fun plain id => isRaw.not_blindTest plain id

/-- An `if` with a group, a named condition and an `else`. -/
def groupFirst : String :=
  "group A x; if group(A) doc one; elif c doc two; else doc three; end"

theorem decompile_compiled_iff_three_blocks : ∃ program graph, Script.parse groupFirst = .ok program ∧
    (compile groupFirst).result = .ok graph ∧ Script.unbranched program = true ∧
      ∃ text, Outline.decompile graph.records 4 = .ok text := by
  have evaluated : (do
      let program ← (Script.parse groupFirst).toOption
      let _ ← (compile groupFirst).result.toOption
      return Script.unbranched program) = some true := by
    decide +kernel
  obtain ⟨program, parsed, evaluated⟩ := Success.exists_of_toOption_bind evaluated
  obtain ⟨graph, success, evaluated⟩ := Success.exists_of_toOption_bind evaluated
  have plain : Script.unbranched program = true := Option.some.inj evaluated
  obtain ⟨written, _, sighted⟩ := decompile_compiled_iff parsed success 4
  exact ⟨program, graph, parsed, success, plain, written.mpr (sighted plain)⟩

/-- A condition with the nickname of the tests for groups is compiled to a test that names no group. -/
theorem not_decompile_compiled :
    ((compile "if branch doc a; else doc b; end").result.toOption.map fun graph =>
      Outline.decompile graph.records 4) = some (.error (.invalidBranch 2)) := by
  cbv

end MissionGraph
