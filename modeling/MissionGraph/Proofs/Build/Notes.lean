import MissionGraph.Proofs.Build.Progress
import MissionGraph.Proofs.Script.Notes

/-!
# Construction without notes

The notes of a script do not matter for what can be built and for how it is laid out.
-/

namespace MissionGraph

open Script (Block Statement eraseBlocks eraseBody)

variable {α : Type}

namespace Script

theorem mains_erase (script : List (Statement α)) : mains (eraseBody script) = eraseBody (mains script) := by
  induction script with
  | nil => rfl
  | cons statement rest ih => cases statement <;> simp [eraseBody, Statement.erase, mains, ih]

theorem groupsOf_erase (script : List (Statement α)) : groupsOf (eraseBody script) = groupsOf script := by
  induction script with
  | nil => rfl
  | cons statement rest ih => cases statement <;> simp [eraseBody, Statement.erase, groupsOf, ih]

theorem subsFrom_erase (first : NodeId) (script : List (Statement α)) :
    subsFrom first (eraseBody script) =
      (subsFrom first script).map fun (id, name, body) => (id, name, eraseBody body) := by
  induction script generalizing first with
  | nil => rfl
  | cons statement rest ih => cases statement <;> simp [eraseBody, Statement.erase, subsFrom, ih]

theorem scopeOf_erase (script : List (Statement α)) : scopeOf (eraseBody script) = scopeOf script := by
  simp [scopeOf, subsOf, groupsOf_erase, subsFrom_erase]

theorem bodiesOf_erase (script : List (Statement α)) :
    bodiesOf (eraseBody script) = (bodiesOf script).map fun (id, body) => (id, eraseBody body) := by
  simp [bodiesOf, subsOf, mains_erase, subsFrom_erase]

end Script

theorem length_eraseBlocks (blocks : List (Block α)) : (eraseBlocks blocks).length = blocks.length := by
  rw [← List.length_map, Script.map_condition_eraseBlocks, List.length_map]

mutual

/-- Statements can be built if they can without their notes. -/
theorem buildable_of_erase {scope : Scope} {statements : List (Statement α)}
    (buildable : Buildable scope (eraseBody statements)) : Buildable scope statements := by
  match statements, buildable with
  | [], _ => exact .nil
  | [.choice _ blocks], .choice several inner =>
      exact .choice (length_eraseBlocks blocks ▸ several) (buildableBlocks_of_erase inner)
  | .call _ _ :: rest, .call known later => exact .call known (buildable_of_erase later)
  | .unimplemented _ :: rest, .unimplemented later => exact .unimplemented (buildable_of_erase later)
  | .doc _ _ :: rest, .doc later => exact .doc (buildable_of_erase later)
  | .field _ _ :: rest, .field known later => exact .field known (buildable_of_erase later)

theorem buildableBlocks_of_erase {scope : Scope} {blocks : List (Block α)}
    (buildable : BuildableBlocks scope (eraseBlocks blocks)) : BuildableBlocks scope blocks := by
  match blocks, buildable with
  | [], _ => exact .nil
  | .mk condition body :: rest, .cons tested resolved inner later =>
      refine .cons (fun others => tested ?_) resolved (buildable_of_erase inner) (buildableBlocks_of_erase later)
      rw [← List.length_pos_iff, length_eraseBlocks]
      exact List.length_pos_iff.mpr others

end

/-! ## Layouts -/

/-- The piece of a script without the notes in it. -/
def Part.erase : Part α → Part Unit
  | .body cursor node statements => .body cursor node (eraseBody statements)
  | .choice blocks => .choice (eraseBlocks blocks)
  | .rest blocks => .rest (eraseBlocks blocks)
  | .block (.mk condition statements) => .block (.mk condition (eraseBody statements))

variable {graph : Graph} {scope : Scope} {first last : Nat}

/-- Without its notes a script lies in its graph as before. -/
theorem Layout.erase {part : Part α} (layout : Layout graph scope part first last) :
    Layout graph scope part.erase first last := by
  induction layout with
  | done found => exact .done found
  | fieldHere taken known _ ih => exact .fieldHere taken known ih
  | fieldBehind refused known found _ ih => exact .fieldBehind refused known found ih
  | missingHere _ ih => exact .missingHere ih
  | missingBehind other found _ ih => exact .missingBehind other found ih
  | doc found _ ih => exact .doc found ih
  | call known _ ih => exact .call known ih
  | choiceBehind found _ ih => exact .choiceBehind found ih
  | @choice _ block _ _ _ _ named found _ _ ihBlock ihRest =>
      obtain ⟨condition, body⟩ := block
      exact .choice named found ihBlock ihRest
  | @lastBlock block _ _ _ ih =>
      obtain ⟨condition, body⟩ := block
      exact .lastBlock ih
  | @laterBlocks block next _ _ _ _ ih =>
      obtain ⟨condition, body⟩ := block
      obtain ⟨other, following⟩ := next
      exact .laterBlocks ih
  | groupBlock known _ ih => exact .groupBlock known ih
  | innerChoice notGroup _ ih => exact .innerChoice notGroup ih
  | @plainBlock condition body _ _ notGroup notChoice _ ih =>
      refine .plainBlock notGroup (fun note blocks isChoice => ?_) ih
      cases body with
      | nil => cases isChoice
      | cons statement rest =>
          cases statement with
          | choice before others => exact notChoice before others rfl
          | _ => cases isChoice

theorem Layouts.erase {bodies : List (NodeId × List (Statement α))} (layouts : Layouts graph scope bodies first last) :
    Layouts graph scope (bodies.map fun (id, body) => (id, eraseBody body)) first last := by
  induction layouts with
  | nil => exact .nil
  | cons head _ ih => exact .cons head.erase ih

theorem LaidOut.erase {script : List (Statement α)} (laid : LaidOut script graph) :
    LaidOut (eraseBody script) graph where
  layouts := by
    rw [Script.scopeOf_erase, Script.bodiesOf_erase, Script.subsOf, Script.subsFrom_erase, List.length_map]
    exact laid.layouts.erase
  stored := laid.stored

end MissionGraph
