import MissionGraph.Text.Case

/-!
# Parameters of a walk

What the game knows when it walks through a graph: the faction that offers the mission, and the
conditions that hold. Names count up to letter case.
-/

namespace MissionGraph.Play

/-- The conditions that the game can answer. -/
def knownConditions : List String :=
  ["Assassinate_mission", "Assassinate_Ship", "Assassinate_solar", "Big_solar", "Bring_back_loot",
    "Continuous_reenforcements", "Defensive_solars", "Defensive_solars_at_main_battle",
    "Destroy_solars_mission", "Friendly_ships", "Friendly_ships_after_30_s",
    "Friendly_ships_at_installation", "Friendly_ships_at_main_battle",
    "Friendly_ships_come_in_to_whoop_up", "Hostile_ships", "Hostile_ships_after_30_s",
    "Hostile_waves", "Main_battle_non_target_wave", "Main_battle_wave_1", "Main_battle_wave_2",
    "Pk_defensive_solars", "Pk_hostile_ships", "Pre_battle", "Pre_battle_non_target_wave",
    "Pre_battle_wave_2", "Pre_battle_wave_runs", "target_drops_critical_loot",
    "Target_spawns_at_pre_battle", "Target_spawns_with_wave", "Tractor_in_loot",
    "Wave_just_after_main_battle_starts"]

/-- The name is in the list, up to letter case. -/
def listed (names : List String) (name : String) : Bool :=
  names.any fun other => Text.sameLetters other name

/-- The offering faction, if any, and the conditions that were made true. -/
structure Params where
  offerGroup : Option String
  conditions : List String
deriving DecidableEq

namespace Params

/-- No faction, and no condition holds. -/
def empty : Params := ⟨none, []⟩

/-- Makes a condition true. -/
def set (params : Params) (condition : String) : Params :=
  { params with conditions := condition :: params.conditions }

/-- Whether a condition holds; there is no answer for a condition that is neither set nor known. -/
def condition? (params : Params) (name : String) : Option Bool :=
  if listed params.conditions name then some true
  else if listed knownConditions name then some false
  else none

end Params

end MissionGraph.Play
