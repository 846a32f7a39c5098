import Mathlib
import MissionGraph.Proofs.Build.Compiled
import MissionGraph.Proofs.Play.Selection

/-!
# Walks through compiled `if`s

A run of a compiled graph that comes to the first decision of an `if` goes on with the block that the
source selects, unless the last block is for a group after a named condition, or an `else` after a group
whose first node names other groups.
-/

namespace MissionGraph

open Mission (Factions)
open Play (Comes Decides Follows Notice Params Refused Traveller offerGroupAt)
open Script (Block Condition Retested Statement Untested selected? taken?)

variable {α : Type} {raw graph : Graph} {place : NodeId → NodeId} {scope : Scope} {params : Params} {seed : UInt64}
  {traveller : Traveller} {earlier : List Notice}

namespace Graph.Folds

/-- Decisions are kept when a graph is simplified. -/
theorem get?_decision (folds : Folds raw graph place) {id one two : NodeId} {nickname : String}
    (reached : raw.Reaches Graph.entry id) (found : raw.get? id = some ⟨.decision nickname, [one, two]⟩) :
    graph.get? (place id) = some ⟨.decision nickname, [place one, place two]⟩ :=
  folds.get?_of_kept reached found rfl

/-- The node that starts the block of a group is kept, and it names the factions of the group. -/
theorem offerGroupAt_block (folds : Folds raw graph place)
    (listed : ∀ name factions, scope.groups.lookup name = some factions → factions.isEmpty = false)
    {name : String} {body : List (Statement α)} {start : NodeId} (reached : raw.Reaches Graph.entry start)
    (block : BlockAt raw scope (.mk (.group name) body) start) :
    ∃ factions, scope.groups.lookup name = some factions ∧
      offerGroupAt graph (place start) = .ok (some factions) := by
  obtain ⟨factions, data, children, known, found, offered⟩ := block.offerGroup
  have nonempty := listed name factions known
  have notEmpty : data.isEmpty = false := by
    simp [Mission.Data.isEmpty, Mission.Data.hasFields, offered, nonempty]
  have stays : Node.forwardsTo? ⟨.data data, children⟩ = none := by
    cases forwards : Node.forwardsTo? ⟨.data data, children⟩ with
    | none => rfl
    | some child =>
        obtain ⟨_, isData, isEmpty, _⟩ := Node.forwardsTo?_eq_some_iff.mp forwards
        cases isData
        rw [notEmpty] at isEmpty
        cases isEmpty
  refine ⟨factions, known, ?_⟩
  rw [Play.offerGroupAt_of_get? (folds.get?_of_kept reached found stays)]
  simp [Node.data?, offered, nonempty]

/-- A test for the group before it finds the last block open exactly if all factions that the first node of this
block names fit. -/
theorem opens_block (folds : Folds raw graph place)
    (listed : ∀ name factions, scope.groups.lookup name = some factions → factions.isEmpty = false)
    {final : Block α} {start : NodeId} (reached : raw.Reaches Graph.entry start)
    (block : BlockAt raw scope final start) (notNamed : final.condition.isNamed = false) {refused : Bool}
    (isRefused : refused = true ↔ Refused graph params (place start)) {others : Option Factions}
    (named : offerGroupAt graph (place start) = .ok others) :
    final.condition.opens scope.groups params refused = others.all params.matches := by
  obtain ⟨condition, body⟩ := final
  cases condition with
  | named _ => cases notNamed
  | group name =>
      obtain ⟨factions, known, isNamed⟩ := folds.offerGroupAt_block listed reached block
      obtain rfl : some factions = others := Except.ok.inj (isNamed.symm.trans named)
      exact Condition.holds_group known params
  | otherwise =>
      show (!refused) = _
      rw [Bool.not_eq_eq_eq_not, Bool.eq_iff_iff, isRefused, Play.refused_iff named, Bool.not_eq_true']

end Graph.Folds

/-- The last decision of an `if` leads to its block if the condition holds; else to the last block, unless it tests a
group and does not find that block open. -/
theorem decides_last (folds : raw.Folds graph place) (proper : graph.Proper)
    (listed : ∀ name factions, scope.groups.lookup name = some factions → factions.isEmpty = false)
    {block final : Block α} {nickname : String} {decision one two : NodeId}
    (named : block.condition.nickname? = some nickname)
    (found : raw.get? decision = some ⟨.decision nickname, [one, two]⟩)
    (here : BlockAt raw scope block one) (there : BlockAt raw scope final two)
    (notNamed : final.condition.isNamed = false)
    (plain : ∀ name, block.condition = .named name → isBranch name = false)
    {refused : Bool} (isRefused : refused = true ↔ Refused graph params (place two))
    (reached : raw.Reaches Graph.entry decision) :
    Decides graph params (place decision)
      (if block.condition.holds scope.groups params then some (place one)
      else if block.condition.isNamed || final.condition.opens scope.groups params refused then some (place two)
      else none) := by
  have stored := folds.get?_decision reached found
  obtain ⟨condition, body⟩ := block
  cases condition with
  | otherwise => cases named
  | named name =>
      obtain rfl : name = nickname := Option.some.inj named
      have decides : Decides graph params (place decision)
          (some (if (Condition.named name).holds scope.groups params then place one else place two)) :=
        Play.decides_named scope.groups (plain name rfl) stored
      rw [apply_ite some] at decides
      exact decides
  | group name =>
      cases named
      have below (id : NodeId) (member : id ∈ [one, two]) : raw.Reaches Graph.entry id :=
        reached.tail (Graph.child_of_get? found member)
      obtain ⟨factions, known, first⟩ := folds.offerGroupAt_block listed (below one (by simp)) here
      obtain ⟨node, storedTwo⟩ := proper.stored (folds.reaches (below two (by simp)))
      have second := Play.offerGroupAt_of_get? storedTwo
      rw [Block.condition, Condition.holds_group known, show (Condition.group name).isNamed = false from rfl,
        Bool.false_or, folds.opens_block listed (below two (by simp)) there notNamed isRefused second]
      exact Play.decides_group stored first second

/-- A decision before another one leads to its block if the condition holds, else to the other decision. -/
theorem decides_next (folds : raw.Folds graph place)
    (listed : ∀ name factions, scope.groups.lookup name = some factions → factions.isEmpty = false)
    {block : Block α} {nickname nextNickname : String} {decision one following third fourth : NodeId}
    (named : block.condition.nickname? = some nickname)
    (found : raw.get? decision = some ⟨.decision nickname, [one, following]⟩)
    (foundNext : raw.get? following = some ⟨.decision nextNickname, [third, fourth]⟩)
    (here : BlockAt raw scope block one)
    (plain : ∀ name, block.condition = .named name → isBranch name = false)
    (reached : raw.Reaches Graph.entry decision) :
    Decides graph params (place decision)
      (some (if block.condition.holds scope.groups params then place one else place following)) := by
  have stored := folds.get?_decision reached found
  obtain ⟨condition, body⟩ := block
  cases condition with
  | otherwise => cases named
  | named name =>
      obtain rfl : name = nickname := Option.some.inj named
      exact Play.decides_named scope.groups (plain name rfl) stored
  | group name =>
      cases named
      have below (id : NodeId) (member : id ∈ [one, following]) : raw.Reaches Graph.entry id :=
        reached.tail (Graph.child_of_get? found member)
      obtain ⟨factions, known, first⟩ := folds.offerGroupAt_block listed (below one (by simp)) here
      have second := Play.offerGroupAt_of_get? (folds.get?_decision (below following (by simp)) foundNext)
      have decides : Decides graph params (place decision)
          (if params.matches factions then some (place one) else some (place following)) :=
        Play.decides_group stored first second
      rw [Block.condition, Condition.holds_group known, apply_ite some]
      exact decides

/-- A run that comes to a compiled `if` follows its decisions. -/
theorem ChoiceAt.follows (folds : raw.Folds graph place) (proper : graph.Proper)
    (ends : ∃ report, (Play.run graph params seed).result = .ok report)
    (listed : ∀ name factions, scope.groups.lookup name = some factions → factions.isEmpty = false)
    {blocks : List (Block α)} {decisions starts : List NodeId}
    (chain : ChoiceAt raw scope blocks decisions starts) (formed : Script.wellFormedBlocks blocks = true)
    (plain : ∀ block ∈ blocks, ∀ name, block.condition = .named name → isBranch name = false)
    {refused : Bool}
    (isRefused : ∀ start, starts.getLast? = some start → (refused = true ↔ Refused graph params (place start)))
    {first : NodeId} (isFirst : decisions.head? = some first) (reached : raw.Reaches Graph.entry first)
    (comes : Comes graph params seed (place first) traveller earlier) :
    Follows graph params seed traveller earlier (decisions.map place) (starts.map place)
      (taken? scope.groups params refused blocks) := by
  induction chain generalizing first earlier with
  | @last block final nickname decision one two named found here there =>
      obtain rfl : decision = first := Option.some.inj isFirst
      have notNamed : final.condition.isNamed = false := by
        simp only [Script.wellFormedBlocks, Bool.and_eq_true, Bool.not_eq_true'] at formed
        exact formed.2
      rw [Script.taken?_pair]
      exact .ofLast comes ends (decides_last folds proper listed named found here there notNamed
        (plain block List.mem_cons_self) (isRefused two rfl) reached)
  | @next block blocks nickname decision following one decisions starts named found here later ih =>
      obtain rfl : decision = first := Option.some.inj isFirst
      obtain ⟨_, _, _, _, _, _, foundNext⟩ := later.get?_first
      have decides : Decides graph params (place decision)
          (some (if block.condition.holds scope.groups params then place one else place following)) :=
        decides_next folds listed named found foundNext here (plain block List.mem_cons_self) reached
      have formedRest := Script.wellFormedBlocks_tail formed later.several
      rw [Script.taken?_cons later.several]
      split
      · rename_i holds
        rw [if_pos holds] at decides
        exact .ofDecides comes ends decides rfl rfl
      · rename_i fails
        rw [if_neg fails] at decides
        obtain ⟨told, visited, onward⟩ := comes.onward ends decides
        refine (ih formedRest (fun other member => plain other (List.mem_cons_of_mem _ member)) ?_ rfl
          (reached.tail (Graph.child_of_get? found (by simp))) onward).behind visited
        intro start isLast
        refine isRefused start ?_
        rw [List.getLast?_cons, isLast]
        rfl

/-- Which block is taken at a compiled `if`, compared with the one that the source selects. -/
theorem ChoiceAt.follows_selected_iff (folds : raw.Folds graph place) (proper : graph.Proper)
    (ends : ∃ report, (Play.run graph params seed).result = .ok report)
    (listed : ∀ name factions, scope.groups.lookup name = some factions → factions.isEmpty = false)
    {blocks : List (Block α)} {first last : NodeId} {decisions starts : List NodeId}
    (chain : ChoiceAt raw scope blocks (first :: decisions) (starts ++ [last]))
    (formed : Script.wellFormedBlocks blocks = true)
    (plain : ∀ block ∈ blocks, ∀ name, block.condition = .named name → isBranch name = false)
    (reached : raw.Reaches Graph.entry first)
    (comes : Comes graph params seed (place first) traveller earlier) :
    let selected := selected? scope.groups params blocks
    let follows := Follows graph params seed traveller earlier ((first :: decisions).map place)
      ((starts ++ [last]).map place)
    let skipsTest := Untested blocks ∧ selected = none
    let refusesElse := Retested blocks ∧ selected = some (blocks.length - 1) ∧ Refused graph params (place last)
    (follows selected ↔ ¬ skipsTest ∧ ¬ refusesElse) ∧
      (skipsTest → follows (some (blocks.length - 1))) ∧ (refusesElse → follows none) := by
  intro selected follows skipsTest refusesElse
  obtain ⟨refused, isRefused⟩ : ∃ refused : Bool, refused = true ↔ Refused graph params (place last) := by
    by_cases refuses : Refused graph params (place last)
    · exact ⟨true, iff_of_true rfl refuses⟩
    · exact ⟨false, iff_of_false Bool.false_ne_true refuses⟩
  have takes : follows (taken? scope.groups params refused blocks) := by
    refine chain.follows folds proper ends listed formed plain (fun start isLast => ?_) rfl reached comes
    rw [List.getLast?_concat] at isLast
    rw [← Option.some.inj isLast]
    exact isRefused
  have inLast : ((first :: decisions).map place).length ≤ blocks.length - 1 + 1 := by
    rw [List.length_map, ← chain.length]
    exact Nat.le_succ _
  have comparison : Script.Compared scope.groups params refused blocks := Script.compared formed refused
  cases comparison with
  | same agree tested accepted =>
      have notRefused : ¬ refusesElse := fun ⟨retested, isLast, refuses⟩ =>
        accepted ⟨retested, isLast, isRefused.mpr refuses⟩
      rw [agree] at takes
      refine ⟨iff_of_true takes ⟨tested, notRefused⟩, ?_, ?_⟩
      · exact fun skipped => absurd skipped tested
      · exact fun refusal => absurd refusal notRefused
  | untested isUntested selectsNone takesLast =>
      rw [takesLast] at takes
      refine ⟨iff_of_false (fun ended => ?_) fun neither => neither.1 ⟨isUntested, selectsNone⟩, fun _ => takes, ?_⟩
      · have ended : follows none := selectsNone ▸ ended
        exact Play.not_follows_both inLast takes ended
      · rintro ⟨_, selectsLast, _⟩
        cases selectsNone.symm.trans selectsLast
  | refused isRetested selectsLast refuses takesNone =>
      have refusal : refusesElse := ⟨isRetested, selectsLast, isRefused.mp refuses⟩
      rw [takesNone] at takes
      refine ⟨iff_of_false (fun onward => ?_) fun neither => neither.2 refusal, ?_, fun _ => takes⟩
      · have onward : follows (some (blocks.length - 1)) := selectsLast ▸ onward
        exact Play.not_follows_both inLast onward takes
      · rintro ⟨_, selectsNone⟩
        cases selectsNone.symm.trans selectsLast

/-- Whenever a run of a compiled graph comes to the first decision of an `if`, it goes on with the block
that the source selects, or ends with a failed report if that selects none; except exactly in two cases.
If the last block is for a group and follows a named condition, it is taken although no condition holds.
If the last block is an `else` after a group and its first node names other groups only, the run ends with
a failed report instead of taking it. -/
theorem branch_selection_iff {source : String} {program : Script.Program} {graph : Graph}
    (parsed : Script.parse source = .ok program) (success : (compile source).result = .ok graph)
    (plain : Script.unbranched program = true) :
    ∃ raw place, Builder.rawGraph program = .ok raw ∧ raw.Folds graph place ∧
      ∀ note blocks, .choice note blocks ∈ Statement.walkBody program →
        (∃ decisions starts, ChoiceAt raw (Script.scopeOf program) blocks decisions starts) ∧
        ∀ first decisions starts last,
          ChoiceAt raw (Script.scopeOf program) blocks (first :: decisions) (starts ++ [last]) →
          raw.Reaches Graph.entry first → ∀ params seed traveller earlier,
            Comes graph params seed (place first) traveller earlier →
              let selected := selected? (Script.scopeOf program).groups params blocks
              let follows := Follows graph params seed traveller earlier ((first :: decisions).map place)
                ((starts ++ [last]).map place)
              let skipsTest := Untested blocks ∧ selected = none
              let refusesElse := Retested blocks ∧ selected = some (blocks.length - 1) ∧
                Refused graph params (place last)
              (follows selected ↔ ¬ skipsTest ∧ ¬ refusesElse) ∧
                (skipsTest → follows (some (blocks.length - 1))) ∧ (refusesElse → follows none) := by
  obtain ⟨known, warnings, raw, parsedAgain, checked, built, rfl⟩ := compile_eq_ok_iff.mp success
  obtain rfl : program = known := Except.ok.inj (parsed.symm.trans parsedAgain)
  have isRaw := rawGraph_of_parse parsed checked built
  obtain ⟨place, folds⟩ := Graph.exists_folds_simplify isRaw.proper
  refine ⟨raw, place, built, folds, fun note blocks inProgram => ⟨isRaw.laidOut.exists_choiceAt inProgram, ?_⟩⟩
  intro first decisions starts last chain reached params seed traveller earlier comes
  have proper := isRaw.compiled.proper
  have nonempty (name : String) (factions : Factions)
      (known : (Script.scopeOf program).groups.lookup name = some factions) : factions.isEmpty = false :=
    List.isEmpty_eq_false_iff.mpr (Script.nameList_of_lookup isRaw.wellFormed known).1
  exact chain.follows_selected_iff folds proper (Play.run_ok proper isRaw.compiled.sound seed) nonempty
    (isRaw.wellFormed _ inProgram) (Script.isBranch_of_unbranched plain inProgram) reached comes

/-- The blocks of an `if`; other statements have none. -/
def blocksOf {α : Type} : Statement α → List (Block α)
  | .choice _ blocks => blocks
  | _ => []

/-- An `if` with a named condition, a group and an `else`. -/
def threeBlocks : String :=
  "group A x; if c doc one; elif group(A) doc two; else doc three; end"

/-- A mission that is offered by a faction of the group comes to the first decision and takes the second block. -/
theorem branch_selection_iff_three_blocks : ∃ program graph raw place note blocks first decisions starts last,
    Script.parse threeBlocks = .ok program ∧ (compile threeBlocks).result = .ok graph ∧
      Script.unbranched program = true ∧ Builder.rawGraph program = .ok raw ∧ raw.Folds graph place ∧
      .choice note blocks ∈ Statement.walkBody program ∧
      ChoiceAt raw (Script.scopeOf program) blocks (first :: decisions) (starts ++ [last]) ∧
      raw.Reaches Graph.entry first ∧ Comes graph ⟨some "x", []⟩ 0 (place first) ⟨.empty, .ofSeed 0⟩ [] ∧
      Follows graph ⟨some "x", []⟩ 0 ⟨.empty, .ofSeed 0⟩ [] ((first :: decisions).map place)
        ((starts ++ [last]).map place) (some 1) := by
  have evaluated : (do
      let program ← (Script.parse threeBlocks).toOption
      let _ ← (compile threeBlocks).result.toOption
      let raw ← (Builder.rawGraph program).toOption
      let choice ← (Statement.walkBody program)[1]?
      return (Script.unbranched program, (blocksOf choice).map Block.condition,
        selected? (Script.scopeOf program).groups ⟨some "x", []⟩ (blocksOf choice), raw.get? Graph.entry,
        raw.toList.all fun stored => decide (stored.2.content = .decision "c" → stored.1 = 3))) =
      some (true, [.named "c", .group "A", .otherwise], some 1, some ⟨.data .empty, [3]⟩, true) := by
    decide +kernel
  obtain ⟨program, parsed, evaluated⟩ := Success.exists_of_toOption_bind evaluated
  obtain ⟨graph, success, evaluated⟩ := Success.exists_of_toOption_bind evaluated
  obtain ⟨known, alsoBuilt, evaluated⟩ := Success.exists_of_toOption_bind evaluated
  obtain ⟨choice, isSecond, evaluated⟩ := Option.bind_eq_some_iff.mp evaluated
  obtain ⟨plain, evaluated⟩ := Prod.mk.inj (Option.some.inj evaluated)
  obtain ⟨conditions, evaluated⟩ := Prod.mk.inj evaluated
  obtain ⟨selects, evaluated⟩ := Prod.mk.inj evaluated
  obtain ⟨forwards, only⟩ := Prod.mk.inj evaluated
  obtain ⟨raw, place, built, folds, choices⟩ := branch_selection_iff parsed success plain
  obtain rfl : raw = known := Except.ok.inj (built.symm.trans alsoBuilt)
  have listed := List.mem_of_getElem? isSecond
  cases choice with
  | choice note blocks =>
      rw [blocksOf] at conditions selects
      obtain ⟨⟨decisions, starts, chain⟩, follows⟩ := choices note blocks listed
      obtain ⟨first, others, front, last, rfl, rfl⟩ := chain.exists_ends
      -- node 3 is the only decision with the nickname of the first condition, and the entry forwards to it
      obtain ⟨block, nickname, _, _, isHead, named, found⟩ := chain.get?_first
      have isNamed : block.condition = .named "c" := by
        have heads := congrArg List.head? conditions
        rw [List.head?_map, isHead] at heads
        exact Option.some.inj heads
      rw [isNamed] at named
      obtain rfl : "c" = nickname := Option.some.inj named
      obtain rfl : first = 3 :=
        of_decide_eq_true (List.all_eq_true.mp only _ (Graph.mem_toList_iff.mpr found)) rfl
      have reached : raw.Reaches Graph.entry 3 := .tail .refl (Graph.child_of_get? forwards List.mem_cons_self)
      have atEntry : Graph.entry = place 3 :=
        folds.entry.symm.trans (folds.place_eq_of_forwards (compiled_of_compile success).folded .refl forwards rfl)
      have comes : Comes graph ⟨some "x", []⟩ 0 (place 3) ⟨.empty, .ofSeed 0⟩ [] :=
        atEntry ▸ Play.comes_entry graph ⟨some "x", []⟩ 0
      obtain ⟨exactly, _, _⟩ := follows 3 others front last chain reached _ 0 _ [] comes
      have size : blocks.length = 3 := by simpa using congrArg List.length conditions
      refine ⟨program, graph, raw, place, note, blocks, 3, others, front, last, parsed, success, plain, built, folds,
        listed, chain, reached, comes, ?_⟩
      rw [selects, size] at exactly
      refine exactly.mpr ⟨?_, ?_⟩
      · rintro ⟨_, selectsNone⟩
        cases selectsNone
      · rintro ⟨_, selectsLast, _⟩
        cases selectsLast
  | _ => cases conditions

/-- Where no condition holds, an `else` block that names a group is not taken, and the block of a group
after a named condition is. -/
theorem not_branch_selection :
    ((compile "group A x; group B y; if group(A) doc a; else offer_group B; doc b; end").result.toOption.bind
        fun graph => (Play.run graph .empty 0).result.toOption.map fun report =>
          (report.failed, report.documentation)) = some (true, []) ∧
      ((compile "group B y; if c doc a; elif group(B) doc b; end").result.toOption.bind
        fun graph => (Play.run graph .empty 0).result.toOption.map fun report =>
          (report.failed, report.documentation)) = some (false, ["b"]) := by
  constructor <;> cbv

end MissionGraph
