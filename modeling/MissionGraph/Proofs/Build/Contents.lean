import MissionGraph.Proofs.Build.Sound
import MissionGraph.Proofs.Script.Grammar

/-!
# What the nodes of a script's graph hold

The values in the graph come from statements of the script, so they can be written down if the
statements can.
-/

namespace MissionGraph

open Mission (Comm Data Difficulty Factions Field Message Objective Offer)
open Number (Single)
open Script (Block Condition Pos Statement isName)

namespace Mission

/-- The names of a list can be written down, and there is one. -/
def NameList (names : List String) : Prop :=
  names ≠ [] ∧ ∀ name ∈ names, isName name = true

/-- All values of the node can be written down. -/
structure Data.WellFormed (data : Data) : Prop where
  weight : ∀ value ∈ data.weight, 0 ≤ value.toInt
  offerGroup : ∀ factions ∈ data.offerGroup, NameList factions.names
  hostileGroup : ∀ factions ∈ data.hostileGroup, NameList factions.names
  zones : ∀ names ∈ data.zones, NameList names
  difficulty : ∀ value ∈ data.difficulty, value.wellFormed = true
  failure : ∀ value ∈ data.failure, value.wellFormed = true
  reward : ∀ value ∈ data.reward, value.wellFormed = true
  objectives : ∀ value ∈ data.objectives, value.wellFormed = true
  offers : ∀ value ∈ data.offers, value.wellFormed = true
  comms : ∀ value ∈ data.comms, value.wellFormed = true

namespace Data.WellFormed

theorem empty : Data.empty.WellFormed := by
  constructor <;> intro value member <;> cases member

theorem mem_some {α : Type} {holds : α → Prop} {value : α} (good : holds value) :
    ∀ other ∈ some value, holds other := by
  rintro _ ⟨⟩
  exact good

theorem mem_snoc {α : Type} {holds : α → Prop} {values : List α} {value : α}
    (older : ∀ other ∈ values, holds other) (newest : holds value) :
    ∀ other ∈ values ++ [value], holds other :=
  List.forall_mem_append.mpr ⟨older, List.forall_mem_singleton.mpr newest⟩

/-- A value that can be written down is put into the data. -/
theorem put {data : Data} (formed : data.WellFormed) {field : Field} (new : field.wellFormed = true)
    {factions : Factions} (named : field.groupName? ≠ none → NameList factions.names) :
    (data.put factions field).WellFormed := by
  cases field with
  | comm value => exact { formed with comms := mem_snoc formed.comms new }
  | failure value => exact { formed with failure := mem_some new }
  | reward value => exact { formed with reward := mem_some new }
  | objective value => exact { formed with objectives := mem_snoc formed.objectives new }
  | offers entries =>
      simp only [Field.wellFormed, Bool.and_eq_true, List.all_eq_true] at new
      exact { formed with offers := List.forall_mem_append.mpr ⟨formed.offers, new.2⟩ }
  | difficulty value => exact { formed with difficulty := mem_some new }
  | weight value => exact { formed with weight := mem_some (by simpa [Field.wellFormed] using new) }
  | zones names => exact { formed with zones := mem_some (by simpa [Field.wellFormed, NameList] using new) }
  | offerGroup name => exact { formed with offerGroup := mem_some (named (Option.some_ne_none _)) }
  | hostileGroup name => exact { formed with hostileGroup := mem_some (named (Option.some_ne_none _)) }

end Data.WellFormed

end Mission

/-- All names and numbers of the content can be written down. -/
def Content.WellFormed : Content → Prop
  | .data values => values.WellFormed
  | .decision nickname => isName nickname = true
  | .documentation text => isName text = true
  | .choice _ => False

namespace Script

/-- The factions of a group in the scope of a script can be written down. -/
theorem nameList_of_lookup {script : List (Statement Pos)} (formed : WellFormed script) {name : String}
    {factions : Factions} (known : (scopeOf script).groups.lookup name = some factions) :
    Mission.NameList factions.names := by
  obtain ⟨before, after, parts, _⟩ := List.lookup_eq_some_iff.mp known
  have member : (name, factions) ∈ groupsOf script := by
    refine List.mem_reverse.mp ?_
    show _ ∈ (scopeOf script).groups
    rw [parts]
    exact List.mem_append_right _ List.mem_cons_self
  obtain ⟨note, group, listed, rfl, rfl⟩ := exists_mem_of_mem_groupsOf member
  have groupFormed := formed _ (mem_walkBody_of_mem listed)
  simp only [Statement.wellFormed, Group.wellFormed, Bool.and_eq_true, List.all_eq_true, Bool.not_eq_true',
    List.isEmpty_eq_false_iff] at groupFormed
  exact ⟨groupFormed.1.2, groupFormed.2⟩

theorem WellFormed.forks {script : List (Statement Pos)} (formed : WellFormed script) :
    Forks (Statement.walkBody script) :=
  fun _ _ member => two_le_length_of_wellFormedBlocks (formed _ member)

end Script

/-- The contents of the nodes of a script's graph can be written down. -/
theorem invariant_wellFormed {script : List (Statement Pos)} (formed : Script.WellFormed script) :
    Invariant (Script.scopeOf script) (Statement.walkBody script) fun node => node.content.WellFormed where
  empty := .empty
  offered := fun _ _ known =>
    { Data.WellFormed.empty with offerGroup := Data.WellFormed.mem_some (Script.nameList_of_lookup formed known) }
  documentation := fun _ _ listed => formed _ listed
  decision := by
    intro note blocks block nickname one two listed member tested
    have conditionFormed := Script.condition_wellFormed (formed _ listed) member
    cases isCondition : block.condition with
    | named name =>
        rw [isCondition] at tested conditionFormed
        cases tested
        exact (Bool.and_eq_true_iff.mp conditionFormed).1
    | group name =>
        rw [isCondition] at tested
        cases tested
        exact (by decide : isName branchNickname = true)
    | otherwise =>
        rw [isCondition] at tested
        cases tested
  put := by
    intro note field data children factions listed known _ holds
    refine holds.put (formed _ listed) fun named => ?_
    rw [Builder.factionsFor?] at known
    split at known
    · exact Script.nameList_of_lookup formed known
    · rename_i unnamed
      exact absurd unnamed named
  missing := fun _ _ holds => { holds with }
  leading := fun _ _ _ holds => holds

end MissionGraph
