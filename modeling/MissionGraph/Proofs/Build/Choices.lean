import MissionGraph.Proofs.Build.Sound

/-!
# Where an `if` lies in the graph

Every `if` of a script is laid out as a chain of decisions, one for each block but the last. The first
way out of a decision leads to its block, the second one to the next decision, or from the last decision
to the last block.
-/

namespace MissionGraph

open Mission (Data Factions)
open Script (Block Condition Statement)

variable {α : Type} {graph : Graph} {scope : Scope}

namespace Script

/-- No named condition of the statements is spelled like the nickname of the tests for groups. -/
def unbranched (statements : List (Statement α)) : Bool :=
  (Statement.walkBody statements).all fun
    | .choice _ blocks => blocks.all fun block =>
        match block.condition with
        | .named name => !isBranch name
        | _ => true
    | _ => true

theorem isBranch_of_unbranched {statements : List (Statement α)} (plain : unbranched statements = true) {note : α}
    {blocks : List (Block α)} (listed : .choice note blocks ∈ Statement.walkBody statements) :
    ∀ block ∈ blocks, ∀ name, block.condition = .named name → isBranch name = false := by
  intro block member name isNamed
  have inChoice := List.all_eq_true.mp plain _ listed
  have inBlock := List.all_eq_true.mp inChoice _ member
  rw [isNamed, Bool.not_eq_true'] at inBlock
  exact inBlock

end Script

/-- The block is laid out from the number on. -/
def BlockAt (graph : Graph) (scope : Scope) (block : Block α) (start : NodeId) : Prop :=
  ∃ last, Layout graph scope (.block block) start last

/-- The `if` with these blocks is built as the listed decisions, and its blocks start at the numbers in
the second list. -/
inductive ChoiceAt (graph : Graph) (scope : Scope) : List (Block α) → List NodeId → List NodeId → Prop where
  | last {block final : Block α} {nickname : String} {decision one two : NodeId}
      (named : block.condition.nickname? = some nickname)
      (found : graph.get? decision = some ⟨.decision nickname, [one, two]⟩)
      (here : BlockAt graph scope block one) (there : BlockAt graph scope final two) :
      ChoiceAt graph scope [block, final] [decision] [one, two]
  | next {block : Block α} {blocks : List (Block α)} {nickname : String} {decision following one : NodeId}
      {decisions starts : List NodeId}
      (named : block.condition.nickname? = some nickname)
      (found : graph.get? decision = some ⟨.decision nickname, [one, following]⟩)
      (here : BlockAt graph scope block one)
      (later : ChoiceAt graph scope blocks (following :: decisions) starts) :
      ChoiceAt graph scope (block :: blocks) (decision :: following :: decisions) (one :: starts)

/-- There is one decision less than there are blocks. -/
theorem ChoiceAt.length {blocks : List (Block α)} {decisions starts : List NodeId}
    (chain : ChoiceAt graph scope blocks decisions starts) : decisions.length + 1 = blocks.length := by
  induction chain with
  | last _ _ _ _ => rfl
  | next _ _ _ _ ih => exact congrArg Nat.succ ih

theorem ChoiceAt.several {blocks : List (Block α)} {decisions starts : List NodeId}
    (chain : ChoiceAt graph scope blocks decisions starts) : 2 ≤ blocks.length := by
  induction chain with
  | last _ _ _ _ => exact Nat.le_refl _
  | next _ _ _ _ ih => exact Nat.le_succ_of_le ih

/-- There is a first decision, and the last block starts somewhere. -/
theorem ChoiceAt.exists_ends {blocks : List (Block α)} {decisions starts : List NodeId}
    (chain : ChoiceAt graph scope blocks decisions starts) :
    ∃ first others front last, decisions = first :: others ∧ starts = front ++ [last] := by
  induction chain with
  | @last _ _ _ decision one two _ _ _ _ => exact ⟨decision, [], [one], two, rfl, rfl⟩
  | @next _ _ _ decision following one others _ _ _ _ _ ih =>
      obtain ⟨_, _, front, last, _, rfl⟩ := ih
      exact ⟨decision, following :: others, one :: front, last, rfl, rfl⟩

/-- The first decision has the nickname of the first condition. -/
theorem ChoiceAt.get?_first {blocks : List (Block α)} {first : NodeId} {decisions starts : List NodeId}
    (chain : ChoiceAt graph scope blocks (first :: decisions) starts) :
    ∃ block nickname one two, blocks.head? = some block ∧ block.condition.nickname? = some nickname ∧
      graph.get? first = some ⟨.decision nickname, [one, two]⟩ := by
  cases chain with
  | last named found _ _ => exact ⟨_, _, _, _, rfl, named, found⟩
  | next named found _ _ => exact ⟨_, _, _, _, rfl, named, found⟩

namespace Layout

/-- What is laid out as an `if` is built as a chain of decisions from its first number on. -/
theorem choiceAt {blocks : List (Block α)} {first last : Nat}
    (layout : Layout graph scope (.choice blocks) first last) :
    ∃ decisions starts, ChoiceAt graph scope blocks (first :: decisions) starts := by
  induction blocks generalizing first last with
  | nil => cases layout
  | cons block blocks ih =>
      cases layout with
      | choice named found inner later =>
          cases later with
          | lastBlock final => exact ⟨[], _, .last named found ⟨_, inner⟩ ⟨_, final⟩⟩
          | laterBlocks others =>
              obtain ⟨decisions, starts, chain⟩ := ih others
              exact ⟨_, _, .next named found ⟨_, inner⟩ chain⟩

/-- Every `if` inside a part is laid out. -/
theorem exists_choice {part : Part α} {first last : Nat} (layout : Layout graph scope part first last)
    {note : α} {blocks : List (Block α)} (listed : .choice note blocks ∈ part.inside) :
    ∃ low high, Layout graph scope (.choice blocks) low high := by
  -- the statements that hold no others are passed over
  have pass {statement : Statement α} {rest : List (Statement α)}
      (member : .choice note blocks ∈ Statement.walkBody (statement :: rest))
      (single : Statement.walk statement = [statement]) (other : statement ≠ .choice note blocks) :
      .choice note blocks ∈ Statement.walkBody rest := by
    rcases mem_walkBody_cons.mp member with inHead | inRest
    · rw [single, List.mem_singleton] at inHead
      exact absurd inHead.symm other
    · exact inRest
  have enter {inner : List (Block α)} {place : α} {low high : Nat}
      (laid : Layout graph scope (.choice inner) low high)
      (ih : .choice note blocks ∈ Statement.walkBlocks inner →
        ∃ low high, Layout graph scope (.choice blocks) low high)
      (member : .choice note blocks ∈ Statement.walkBody [.choice place inner]) :
      ∃ low high, Layout graph scope (.choice blocks) low high := by
    rcases mem_walkBody_cons.mp member with inHead | inRest
    · rcases List.mem_cons.mp inHead with same | inside
      · cases same
        exact ⟨_, _, laid⟩
      · exact ih inside
    · cases inRest
  induction layout with
  | done _ => cases listed
  | fieldHere _ _ _ ih => exact ih (pass listed rfl nofun)
  | fieldBehind _ _ _ _ ih => exact ih (pass listed rfl nofun)
  | missingHere _ ih => exact ih (pass listed rfl nofun)
  | missingBehind _ _ _ ih => exact ih (pass listed rfl nofun)
  | doc _ _ ih => exact ih (pass listed rfl nofun)
  | call _ _ ih => exact ih (pass listed rfl nofun)
  | choiceBehind _ inner ih => exact enter inner ih listed
  | choice _ _ _ _ ihBlock ihRest =>
      rcases mem_walkBlocks_cons.mp listed with inBlock | inRest
      · exact ihBlock inBlock
      · exact ihRest inRest
  | lastBlock _ ih =>
      rcases mem_walkBlocks_cons.mp listed with inBlock | inRest
      · exact ih inBlock
      · cases inRest
  | laterBlocks _ ih => exact ih listed
  | groupBlock _ _ ih => exact ih listed
  | innerChoice _ inner ih => exact enter inner ih listed
  | plainBlock _ _ _ ih => exact ih listed

/-- A data node that names an offering group keeps it when statements are added. -/
theorem offerGroup_kept {cursor : NodeId} {data : Data} {children : List NodeId}
    {statements : List (Statement α)} {first last : Nat} {factions : Factions}
    (layout : Layout graph scope (.body cursor ⟨.data data, children⟩ statements) first last)
    (offered : data.offerGroup = some factions) :
    ∃ final following, graph.get? cursor = some ⟨.data final, following⟩ ∧ final.offerGroup = some factions := by
  induction statements generalizing data children first with
  | nil =>
      cases layout with
      | done found => exact ⟨_, _, found, offered⟩
  | cons statement rest ih =>
      cases layout with
      | @fieldHere _ _ _ _ field _ _ _ _ taken known later =>
          refine ih later ?_
          cases field with
          | offerGroup name =>
              rw [Data.accepts, offered, Option.isNone_some, Bool.and_false] at taken
              cases taken
          | _ => exact offered
      | fieldBehind _ _ found _ => exact ⟨_, _, found, offered⟩
      | missingHere later => exact ih later offered
      | missingBehind _ found _ => exact ⟨_, _, found, offered⟩
      | doc found _ => exact ⟨_, _, found, offered⟩
      | call _ later => exact ih later offered
      | choiceBehind found _ => exact ⟨_, _, found, offered⟩

end Layout

/-- The block of a group starts with a node that names the group. -/
theorem BlockAt.offerGroup {name : String} {body : List (Statement α)} {start : NodeId}
    (block : BlockAt graph scope (.mk (.group name) body) start) :
    ∃ factions data children, scope.groups.lookup name = some factions ∧
      graph.get? start = some ⟨.data data, children⟩ ∧ data.offerGroup = some factions := by
  obtain ⟨last, layout⟩ := block
  cases layout with
  | groupBlock known inner =>
      obtain ⟨data, children, found, offered⟩ := inner.offerGroup_kept rfl
      exact ⟨_, data, children, known, found, offered⟩
  | innerChoice notGroup _ => cases notGroup
  | plainBlock notGroup _ _ => cases notGroup

namespace Script

/-- An `if` in a script stands among the statements that declare nothing or in a sub. -/
theorem mem_mains_or_subsFrom {script : List (Statement α)} {note : α} {blocks : List (Block α)}
    (listed : .choice note blocks ∈ Statement.walkBody script) (first : NodeId) :
    .choice note blocks ∈ Statement.walkBody (mains script) ∨
      ∃ id name body, (id, name, body) ∈ subsFrom first script ∧
        .choice note blocks ∈ Statement.walkBody body := by
  induction script generalizing first with
  | nil => cases listed
  | cons statement rest ih =>
      rcases mem_walkBody_cons.mp listed with inHead | inRest
      · cases statement with
        | sub place name body =>
            rcases List.mem_cons.mp inHead with impossible | inBody
            · cases impossible
            · exact .inr ⟨first, name, body, List.mem_cons_self, inBody⟩
        | group place group =>
            cases List.mem_singleton.mp inHead
        | _ => exact .inl (mem_walkBody_cons.mpr (.inl inHead))
      · cases statement with
        | sub place name body =>
            rcases ih inRest (first + 1) with inMains | ⟨id, other, inner, declared, inBody⟩
            · exact .inl inMains
            · exact .inr ⟨id, other, inner, List.mem_cons_of_mem _ declared, inBody⟩
        | group place group => exact ih inRest first
        | _ =>
            rcases ih inRest first with inMains | inSub
            · exact .inl (mem_walkBody_cons.mpr (.inr inMains))
            · exact .inr inSub

theorem exists_mem_bodiesOf {script : List (Statement α)} {note : α} {blocks : List (Block α)}
    (listed : .choice note blocks ∈ Statement.walkBody script) :
    ∃ root body, (root, body) ∈ bodiesOf script ∧ .choice note blocks ∈ Statement.walkBody body := by
  rcases mem_mains_or_subsFrom listed (Graph.entry + 1) with inMains | ⟨id, name, body, declared, inBody⟩
  · exact ⟨_, _, List.mem_cons_self, inMains⟩
  · exact ⟨id, body, mem_bodiesOf_of_mem_subsOf declared, inBody⟩

end Script

/-- Every `if` of a script is laid out in its graph. -/
theorem LaidOut.exists_choiceAt {script : List (Statement α)} (laid : LaidOut script graph) {note : α}
    {blocks : List (Block α)} (listed : .choice note blocks ∈ Statement.walkBody script) :
    ∃ decisions starts, ChoiceAt graph (Script.scopeOf script) blocks decisions starts := by
  obtain ⟨root, body, isBody, inBody⟩ := Script.exists_mem_bodiesOf listed
  obtain ⟨low, high, bodyAt⟩ := laid.bodyAt isBody
  obtain ⟨first, last, layout⟩ := bodyAt.layout.exists_choice inBody
  obtain ⟨decisions, starts, chain⟩ := layout.choiceAt
  exact ⟨_, _, chain⟩

end MissionGraph
