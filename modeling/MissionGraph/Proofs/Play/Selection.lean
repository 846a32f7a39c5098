import MissionGraph.Play.Walk
import MissionGraph.Proofs.Build.Choices
import MissionGraph.Proofs.Play.Safety
import MissionGraph.Proofs.Script.WellFormed

/-!
# Which block of an `if` a walk takes

The source selects the first block whose condition holds. A walk that comes to the first decision of an
`if` follows its chain of decisions. It takes the selected block, with two exceptions: after a named
condition the last block is taken without a test for its group, and an `else` block after a group is
tested for the group that its first node names.
-/

namespace MissionGraph

open Mission (Factions)
open Play (Notice Params Traveller offerGroupAt)
open Script (Block Condition Statement)

variable {α : Type}

namespace Script

/-- Whether a condition holds when a walk has the given parameters; `else` always does. -/
def Condition.holds (groups : List (String × Factions)) (params : Params) : Condition → Bool
  | .named name => params.condition? name == some true
  | .group name => (groups.lookup name).any params.matches
  | .otherwise => true

theorem Condition.holds_group {groups : List (String × Factions)} {name : String} {factions : Factions}
    (known : groups.lookup name = some factions) (params : Params) :
    (Condition.group name).holds groups params = params.matches factions := by
  rw [Condition.holds, known]
  rfl

/-- The place of the block that the source selects: the first one whose condition holds. -/
def selected? (groups : List (String × Factions)) (params : Params) (blocks : List (Block α)) : Option Nat :=
  blocks.findIdx? fun block => block.condition.holds groups params

/-- The conditions of the last two blocks. -/
def lastConditions? : List (Block α) → Option (Condition × Condition)
  | [] => none
  | [_] => none
  | [block, final] => some (block.condition, final.condition)
  | _ :: blocks => lastConditions? blocks

/-- The last block is for a group and follows a named condition. -/
def Untested (blocks : List (Block α)) : Prop :=
  ∃ name group, lastConditions? blocks = some (.named name, .group group)

/-- The last block is an `else` and follows the block of a group. -/
def Retested (blocks : List (Block α)) : Prop :=
  ∃ group, lastConditions? blocks = some (.group group, .otherwise)

/-- The place of the block that a walk takes, given whether the first node of the last block names
groups without the offering faction. -/
def taken? (groups : List (String × Factions)) (params : Params) (refused : Bool) :
    List (Block α) → Option Nat
  | [] => none
  | [_] => none
  | [block, final] =>
      if block.condition.holds groups params then some 0
      else
        match block.condition, final.condition with
        | .named _, _ => some 1
        | _, .otherwise => if refused then none else some 1
        | _, condition => if condition.holds groups params then some 1 else none
  | block :: blocks =>
      if block.condition.holds groups params then some 0
      else (taken? groups params refused blocks).map (· + 1)

end Script

namespace Play

/-- The numbers of the visited nodes that notices tell of. -/
def visitedIds (notices : List Notice) : List NodeId :=
  notices.filterMap fun
    | .visited id _ => some id
    | _ => none

/-- A run comes to a node, with what it carries and what it told before. -/
def Comes (graph : Graph) (params : Params) (seed : UInt64) (id : NodeId) (traveller : Traveller)
    (earlier : List Notice) : Prop :=
  ∃ visits, run graph params seed = (walk graph params visits id traveller).after earlier

/-- Every run comes to the entry at its start. -/
theorem comes_entry (graph : Graph) (params : Params) (seed : UInt64) :
    Comes graph params seed Graph.entry ⟨.empty, .ofSeed seed⟩ [] :=
  ⟨graph.size, rfl⟩

/-- A run that came to an `if` goes on with the block at a place, past the decisions before that block
and nothing else; or, without a place, it passes all decisions and ends with a failed report. -/
def Follows (graph : Graph) (params : Params) (seed : UInt64) (traveller : Traveller)
    (earlier : List Notice) (decisions starts : List NodeId) : Option Nat → Prop
  | some index => ∃ start notices, starts[index]? = some start ∧
      visitedIds notices = decisions.take (index + 1) ∧
      Comes graph params seed start traveller (earlier ++ notices)
  | none => ∃ notices, visitedIds notices = decisions ∧
      run graph params seed = ⟨earlier ++ notices, .ok traveller.report.fail⟩

/-- The node names groups to offer the mission, and the offering faction is in none of them. -/
def Refused (graph : Graph) (params : Params) (id : NodeId) : Prop :=
  ∃ factions, offerGroupAt graph id = .ok (some factions) ∧ params.matches factions = false

theorem refused_iff {graph : Graph} {params : Params} {id : NodeId} {named : Option Factions}
    (found : offerGroupAt graph id = .ok named) :
    Refused graph params id ↔ named.all params.matches = false := by
  constructor
  · rintro ⟨factions, isNamed, refuses⟩
    obtain rfl : named = some factions := Except.ok.inj (found.symm.trans isNamed)
    exact refuses
  · intro refuses
    cases named with
    | none => cases refuses
    | some factions => exact ⟨factions, found, refuses⟩

variable {graph : Graph} {params : Params} {seed : UInt64} {traveller : Traveller} {earlier : List Notice}
  {groups : List (String × Factions)}

theorem visitedIds_append (first second : List Notice) :
    visitedIds (first ++ second) = visitedIds first ++ visitedIds second :=
  List.filterMap_append

/-! ## Single decisions -/

/-- Where a walk goes from a decision; it visits nothing else on its way. -/
def Decides (graph : Graph) (params : Params) (id : NodeId) (next : Option NodeId) : Prop :=
  ∃ nickname children notices, graph.get? id = some ⟨.decision nickname, children⟩ ∧
    chooseWay graph params id nickname children = .ok (notices, next) ∧ visitedIds notices = []

/-- A named condition decides between the two ways. -/
theorem decides_named (groups : List (String × Factions)) {id one two : NodeId} {name : String} (plain : isBranch name = false)
    (found : graph.get? id = some ⟨.decision name, [one, two]⟩) :
    Decides graph params id (some (if (Condition.named name).holds groups params then one else two)) := by
  have decided : (decideNamed params name one two).2 =
      (if (Condition.named name).holds groups params then one else two) ∧
        visitedIds (decideNamed params name one two).1 = [] := by
    unfold decideNamed
    rw [Condition.holds]
    rcases params.condition? name with _ | _ | _ <;> exact ⟨rfl, rfl⟩
  refine ⟨name, [one, two], _, found, ?_, decided.2⟩
  rw [chooseWay, plain, if_neg Bool.false_ne_true, ← decided.1]

/-- A test for groups leads to the first node if that names the offering faction; else to the second node,
unless that names other groups only. -/
theorem decides_group {id one two : NodeId} {factions : Factions} {others : Option Factions}
    (found : graph.get? id = some ⟨.decision branchNickname, [one, two]⟩)
    (first : offerGroupAt graph one = .ok (some factions)) (second : offerGroupAt graph two = .ok others) :
    Decides graph params id
      (if params.matches factions then some one else if others.all params.matches then some two else none) := by
  have isTest : isBranch branchNickname = true := by decide +kernel
  have decided : ∃ notices, decideGroup graph params id one two = .ok (notices,
      if params.matches factions then some one else if others.all params.matches then some two else none) ∧
        visitedIds notices = [] := by
    unfold decideGroup
    rw [first, second]
    simp only [Success.ok_bind]
    split
    · exact ⟨[], rfl, rfl⟩
    · cases others with
      | none => exact ⟨[], rfl, rfl⟩
      | some other =>
          simp only [Option.all_some]
          split
          · exact ⟨[], rfl, rfl⟩
          · exact ⟨_, rfl, rfl⟩
  obtain ⟨notices, isWay, silent⟩ := decided
  exact ⟨_, _, notices, found, by rw [chooseWay, if_pos isTest, isWay], silent⟩

/-- A run that comes to a decision goes on where that leads. -/
theorem Comes.onward {id next : NodeId} (comes : Comes graph params seed id traveller earlier)
    (ends : ∃ report, (run graph params seed).result = .ok report) (decides : Decides graph params id (some next)) :
    ∃ notices, visitedIds notices = [id] ∧ Comes graph params seed next traveller (earlier ++ notices) := by
  obtain ⟨visits, same⟩ := comes
  obtain ⟨nickname, children, notices, found, chosen, silent⟩ := decides
  cases visits with
  | zero =>
      obtain ⟨report, success⟩ := ends
      rw [same] at success
      cases success
  | succ visits =>
      refine ⟨.visited id (.decision nickname) :: notices, congrArg (List.cons id) silent, visits, ?_⟩
      rw [same, walk, found]
      simp only [visit, chosen, Outcome.after, List.append_assoc]

/-- A run that comes to a decision without a way out ends there with a failed report. -/
theorem Comes.ends {id : NodeId} (comes : Comes graph params seed id traveller earlier)
    (ends : ∃ report, (run graph params seed).result = .ok report) (decides : Decides graph params id none) :
    ∃ notices, visitedIds notices = [id] ∧
      run graph params seed = ⟨earlier ++ notices, .ok traveller.report.fail⟩ := by
  obtain ⟨visits, same⟩ := comes
  obtain ⟨nickname, children, notices, found, chosen, silent⟩ := decides
  cases visits with
  | zero =>
      obtain ⟨report, success⟩ := ends
      rw [same] at success
      cases success
  | succ visits =>
      refine ⟨.visited id (.decision nickname) :: notices, congrArg (List.cons id) silent, ?_⟩
      rw [same, walk, found]
      simp only [visit, chosen, Outcome.after]

/-- The first decision leads to a block at once. -/
theorem Follows.ofDecides {first start : NodeId} {decisions starts : List NodeId} {index : Nat}
    (comes : Comes graph params seed first traveller earlier)
    (ends : ∃ report, (run graph params seed).result = .ok report)
    (decides : Decides graph params first (some start)) (isStart : starts[index]? = some start)
    (only : decisions.take (index + 1) = [first]) :
    Follows graph params seed traveller earlier decisions starts (some index) := by
  obtain ⟨notices, visited, onward⟩ := comes.onward ends decides
  exact ⟨start, notices, isStart, visited.trans only.symm, onward⟩

/-- The last decision leads to one of the last two blocks, or it has no way out. -/
theorem Follows.ofLast {decision one two : NodeId} {first second : Bool}
    (comes : Comes graph params seed decision traveller earlier)
    (ends : ∃ report, (run graph params seed).result = .ok report)
    (decides : Decides graph params decision (if first then some one else if second then some two else none)) :
    Follows graph params seed traveller earlier [decision] [one, two]
      (if first then some 0 else if second then some 1 else none) := by
  cases first with
  | true => exact .ofDecides comes ends decides rfl rfl
  | false =>
      cases second with
      | true => exact .ofDecides comes ends decides rfl rfl
      | false => exact comes.ends ends decides

/-- A run that comes to a node visits it. -/
theorem Comes.visits {id : NodeId} {report : Report} {notices : List Notice}
    (comes : Comes graph params seed id traveller earlier)
    (whole : run graph params seed = ⟨notices, .ok report⟩) :
    (visitedIds earlier).length < (visitedIds notices).length := by
  obtain ⟨visits, same⟩ := comes
  rw [whole] at same
  cases visits with
  | zero => cases congrArg Outcome.result same
  | succ visits =>
      rw [walk] at same
      cases found : graph.get? id with
      | none =>
          rw [found] at same
          cases congrArg Outcome.result same
      | some node =>
          rw [found] at same
          have told : ∃ later, notices = earlier ++ .visited id node.content :: later := by
            simp only at same
            split at same <;> exact ⟨_, congrArg Outcome.notices same⟩
          obtain ⟨later, rfl⟩ := told
          rw [visitedIds_append]
          simp [visitedIds]

/-! ## Chains of decisions -/

/-- What is followed from the second decision on is followed from the first on, if that leads there. -/
theorem Follows.behind {decision one : NodeId} {decisions starts : List NodeId} {told : List Notice}
    {index? : Option Nat} (follows : Follows graph params seed traveller (earlier ++ told) decisions starts index?)
    (silent : visitedIds told = [decision]) :
    Follows graph params seed traveller earlier (decision :: decisions) (one :: starts) (index?.map (· + 1)) := by
  cases index? with
  | none =>
      obtain ⟨notices, visited, whole⟩ := follows
      refine ⟨told ++ notices, ?_, by rw [whole, List.append_assoc]⟩
      rw [visitedIds_append, silent, visited]
      rfl
  | some index =>
      obtain ⟨start, notices, isStart, visited, comes⟩ := follows
      refine ⟨start, told ++ notices, isStart, ?_, by rw [← List.append_assoc]; exact comes⟩
      rw [visitedIds_append, silent, visited]
      rfl

/-- A run cannot both go on with the last block and end after the last decision. -/
theorem not_follows_both {decisions starts : List NodeId} {index : Nat} (last : decisions.length ≤ index + 1)
    (onward : Follows graph params seed traveller earlier decisions starts (some index))
    (ended : Follows graph params seed traveller earlier decisions starts none) : False := by
  obtain ⟨start, told, _, visitedBefore, comes⟩ := onward
  obtain ⟨notices, visited, whole⟩ := ended
  have more := comes.visits whole
  rw [visitedIds_append, visitedIds_append, visitedBefore, visited, List.take_of_length_le last] at more
  exact Nat.lt_irrefl _ more

end Play

namespace Script

variable {groups : List (String × Factions)} {params : Params}

theorem selected?_cons (block : Block α) (blocks : List (Block α)) :
    selected? groups params (block :: blocks) =
      if block.condition.holds groups params then some 0
      else (selected? groups params blocks).map (· + 1) :=
  List.findIdx?_cons

theorem taken?_cons {refused : Bool} {block : Block α} {blocks : List (Block α)} (several : 2 ≤ blocks.length) :
    taken? groups params refused (block :: blocks) =
      if block.condition.holds groups params then some 0
      else (taken? groups params refused blocks).map (· + 1) := by
  match blocks, several with
  | first :: second :: rest, _ =>
      rw [taken?]
      · exact nofun
      · exact nofun

/-- The last block is open after a test for a group: an `else` unless it is refused, and another block if its
condition holds. -/
def Condition.opens (groups : List (String × Factions)) (params : Params) (refused : Bool) : Condition → Bool
  | .otherwise => !refused
  | condition => condition.holds groups params

/-- Of the last two blocks the second is taken if it is open or if the first has a named condition. -/
theorem taken?_pair {refused : Bool} (block final : Block α) :
    taken? groups params refused [block, final] =
      if block.condition.holds groups params then some 0
      else if block.condition.isNamed || final.condition.opens groups params refused then some 1 else none := by
  rw [taken?]
  cases holds : block.condition.holds groups params with
  | true => rfl
  | false =>
      cases isFirst : block.condition with
      | named name => rfl
      | otherwise =>
          rw [isFirst] at holds
          cases holds
      | group name =>
          cases final.condition with
          | otherwise => cases refused <;> rfl
          | named _ => rfl
          | group _ => rfl

theorem selected?_pair {block final : Block α} (fails : block.condition.holds groups params = false) :
    selected? groups params [block, final] = if final.condition.holds groups params then some 1 else none := by
  rw [selected?_cons, fails, if_neg Bool.false_ne_true, selected?_cons]
  split <;> rfl

/-- How the block that a walk takes compares with the selected one. -/
inductive Compared (groups : List (String × Factions)) (params : Params) (refused : Bool)
    (blocks : List (Block α)) : Prop where
  | same (agree : taken? groups params refused blocks = selected? groups params blocks)
      (tested : ¬ (Untested blocks ∧ selected? groups params blocks = none))
      (accepted : ¬ (Retested blocks ∧ selected? groups params blocks = some (blocks.length - 1) ∧
        refused = true))
  | untested (ends : Untested blocks) (selects : selected? groups params blocks = none)
      (takes : taken? groups params refused blocks = some (blocks.length - 1))
  | refused (ends : Retested blocks) (selects : selected? groups params blocks = some (blocks.length - 1))
      (refuses : refused = true) (takes : taken? groups params refused blocks = none)

/-- If the first of several conditions holds, its block is both selected and taken. -/
theorem Compared.ofFirst {refused : Bool} {block : Block α} {blocks : List (Block α)} (more : blocks ≠ [])
    (holds : block.condition.holds groups params = true) : Compared groups params refused (block :: blocks) := by
  have selects : selected? groups params (block :: blocks) = some 0 := by
    rw [selected?_cons, if_pos holds]
  have takes : taken? groups params refused (block :: blocks) = some 0 := by
    obtain ⟨second, rest, rfl⟩ := List.exists_cons_of_ne_nil more
    cases rest with
    | nil => rw [taken?_pair, if_pos holds]
    | cons third others => rw [taken?_cons (Nat.le_add_left 2 _), if_pos holds]
  refine .same (takes.trans selects.symm) ?_ ?_
  · rintro ⟨_, nothing⟩
    cases selects.symm.trans nothing
  · rintro ⟨_, isLast, _⟩
    have same := Option.some.inj (selects.symm.trans isLast)
    exact more (List.eq_nil_of_length_eq_zero same.symm)

/-- A named condition that does not hold, and the last block behind it. -/
theorem compared_named {name : String} {final : Condition} (fails : (Condition.named name).holds groups params = false)
    (notNamed : final.isNamed = false) (body finalBody : List (Statement α)) (refused : Bool) :
    Compared groups params refused [.mk (.named name) body, .mk final finalBody] := by
  have selects : selected? groups params [Block.mk (.named name) body, .mk final finalBody] =
      if final.holds groups params then some 1 else none := selected?_pair fails
  have takes : taken? groups params refused [Block.mk (.named name) body, .mk final finalBody] = some 1 := by
    rw [taken?_pair, Block.condition, fails]
    rfl
  cases holdsLast : final.holds groups params with
  | true =>
      rw [holdsLast, if_pos rfl] at selects
      refine .same (takes.trans selects.symm) ?_ ?_
      · rintro ⟨_, nothing⟩
        cases selects.symm.trans nothing
      · rintro ⟨⟨group, isPair⟩, _⟩
        cases isPair
  | false =>
      rw [holdsLast, if_neg Bool.false_ne_true] at selects
      cases final with
      | named _ => cases notNamed
      | otherwise => cases holdsLast
      | group group => exact .untested ⟨name, group, rfl⟩ selects takes

/-- A group that does not fit, and the last block behind it. -/
theorem compared_group {name : String} {final : Condition} (fails : (Condition.group name).holds groups params = false)
    (notNamed : final.isNamed = false) (body finalBody : List (Statement α)) (refused : Bool) :
    Compared groups params refused [.mk (.group name) body, .mk final finalBody] := by
  have selects : selected? groups params [Block.mk (.group name) body, .mk final finalBody] =
      if final.holds groups params then some 1 else none := selected?_pair fails
  have takes : taken? groups params refused [Block.mk (.group name) body, .mk final finalBody] =
      if final.opens groups params refused then some 1 else none := by
    rw [taken?_pair, Block.condition, fails]
    rfl
  have tested : ¬ Untested [Block.mk (.group name) body, .mk final finalBody] := by
    rintro ⟨_, _, isPair⟩
    cases isPair
  cases final with
  | named _ => cases notNamed
  | group other =>
      refine .same (takes.trans selects.symm) (fun ⟨untested, _⟩ => tested untested) ?_
      rintro ⟨⟨_, isPair⟩, _⟩
      cases isPair
  | otherwise =>
      cases refused with
      | true => exact .refused ⟨name, rfl⟩ selects rfl takes
      | false =>
          refine .same (takes.trans selects.symm) (fun ⟨untested, _⟩ => tested untested) ?_
          rintro ⟨_, _, refusal⟩
          cases refusal

/-- Two blocks, the second one not for a named condition. -/
theorem compared_pair {condition final : Condition} (notElse : condition ≠ .otherwise)
    (notNamed : final.isNamed = false) (body finalBody : List (Statement α)) (refused : Bool) :
    Compared groups params refused [.mk condition body, .mk final finalBody] := by
  cases holds : condition.holds groups params with
  | true => exact .ofFirst (List.cons_ne_nil _ _) holds
  | false =>
      cases condition with
      | otherwise => exact absurd rfl notElse
      | named name => exact compared_named holds notNamed body finalBody refused
      | group name => exact compared_group holds notNamed body finalBody refused

/-- A further block in front that is not taken changes the places only. -/
theorem Compared.behind {refused : Bool} {blocks : List (Block α)} (block : Block α) (several : 2 ≤ blocks.length)
    (compared : Compared groups params refused blocks) : Compared groups params refused (block :: blocks) := by
  obtain ⟨first, second, rest, rfl⟩ : ∃ first second rest, blocks = first :: second :: rest := by
    match blocks, several with
    | first :: second :: rest, _ => exact ⟨first, second, rest, rfl⟩
  have takes : taken? groups params refused (block :: first :: second :: rest) =
      if block.condition.holds groups params then some 0
      else (taken? groups params refused (first :: second :: rest)).map (· + 1) := taken?_cons several
  have selects : selected? groups params (block :: first :: second :: rest) =
      if block.condition.holds groups params then some 0
      else (selected? groups params (first :: second :: rest)).map (· + 1) := selected?_cons _ _
  cases holds : block.condition.holds groups params with
  | true => exact .ofFirst (List.cons_ne_nil _ _) holds
  | false =>
      rw [holds, if_neg Bool.false_ne_true] at takes selects
      have isNone (nothing : selected? groups params (block :: first :: second :: rest) = none) :
          selected? groups params (first :: second :: rest) = none := by
        rwa [selects, Option.map_eq_none_iff] at nothing
      have isLast (last : selected? groups params (block :: first :: second :: rest) =
          some ((block :: first :: second :: rest).length - 1)) :
          selected? groups params (first :: second :: rest) = some ((first :: second :: rest).length - 1) := by
        rw [selects] at last
        obtain ⟨index, isIndex, same⟩ := Option.map_eq_some_iff.mp last
        rw [isIndex, Nat.succ.inj same]
        rfl
      -- the last two conditions are those of the later blocks
      cases compared with
      | same agree tested accepted =>
          refine .same (by rw [takes, selects, agree]) ?_ ?_
          · exact fun ⟨ends, nothing⟩ => tested ⟨ends, isNone nothing⟩
          · exact fun ⟨ends, last, refuses⟩ => accepted ⟨ends, isLast last, refuses⟩
      | untested ends nothing takesLast =>
          exact .untested ends (by rw [selects, nothing]; rfl) (by rw [takes, takesLast]; rfl)
      | refused ends last refuses takesNone =>
          exact .refused ends (by rw [selects, last]; rfl) refuses (by rw [takes, takesNone]; rfl)

/-- How the taken block compares with the selected one in every `if`. -/
theorem compared {blocks : List (Block α)} (formed : wellFormedBlocks blocks = true) (refused : Bool) :
    Compared groups params refused blocks := by
  fun_induction wellFormedBlocks blocks with
  | case1 => cases formed
  | case2 _ => cases formed
  | case3 first final =>
      obtain ⟨condition, body⟩ := first
      obtain ⟨lastCondition, lastBody⟩ := final
      simp only [Bool.and_eq_true, Block.condition, bne_iff_ne, Bool.not_eq_true'] at formed
      exact compared_pair formed.1.1.2 formed.2 _ _ _
  | case4 first rest _ _ ih =>
      simp only [Bool.and_eq_true] at formed
      exact (ih formed.2).behind first (two_le_length_of_wellFormedBlocks formed.2)

end Script

end MissionGraph
