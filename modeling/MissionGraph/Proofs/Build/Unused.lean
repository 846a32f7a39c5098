import Mathlib
import MissionGraph.Proofs.Build.Attached
import MissionGraph.Proofs.Build.Reached
import MissionGraph.Proofs.Graph.Stability

/-!
# Scripts without unused subs

If every sub is called somewhere and no sub calls itself, then every sub is called from the statements that declare
nothing, directly or through other subs. The entry then reaches all nodes of the graph of the script, and simplifying
cuts none of them off.
-/

namespace MissionGraph

open Relation
open Script (Block Called Calls Live Pos Program Statement callsIn check declaredSub? mains subsOf unusedSubs)

namespace Script

variable {script : Program} {warnings : List String} {name : String}

/-- A call stands in the statements that declare nothing, or in the body of a sub. -/
theorem mem_mains_or_calls {place : Pos} (inside : .call place name ∈ Statement.walkBody script) :
    .call place name ∈ Statement.walkBody (mains script) ∨ ∃ caller, Calls script caller name := by
  induction script with
  | nil => cases inside
  | cons statement rest ih =>
      rcases mem_walkBody_cons.mp inside with here | later
      · cases statement with
        | group pos group => cases List.mem_singleton.mp here
        | sub pos caller body =>
            have inBody := (List.mem_cons.mp here).resolve_left fun same => by cases same
            exact .inr ⟨caller, pos, body, place, List.mem_cons_self, inBody⟩
        | _ => exact .inl (List.mem_append_left _ here)
      · rcases ih later with inMains | ⟨caller, pos, body, inner, isSub, inBody⟩
        · refine .inl ?_
          cases statement with
          | group pos group => exact inMains
          | sub pos caller body => exact inMains
          | _ => exact List.mem_append_right _ inMains
        · exact .inr ⟨caller, pos, body, inner, List.mem_cons_of_mem _ isSub, inBody⟩

/-- If no sub is unused, then all of them are called from the statements that declare nothing. -/
theorem called_of_unusedSubs_eq_nil (checked : check script = .ok warnings) (used : unusedSubs script = [])
    (declared : name ∈ script.filterMap declaredSub?) : Called script name := by
  obtain ⟨rank, down⟩ := exists_rank_of_check checked
  obtain ⟨bound, most⟩ := ((script.filterMap declaredSub?).map rank).toFinset.exists_le
  -- a caller has a higher rank, and there is a highest one
  induction gap : bound - rank name using Nat.strongRecOn generalizing name with
  | _ _ ih =>
      subst gap
      have isCalled : name ∈ (callsIn script).map Prod.snd := by
        have kept := List.filter_eq_nil_iff.mp used name declared
        simpa using kept
      obtain ⟨place, inside⟩ := mem_callsIn_iff.mp isCalled
      rcases mem_mains_or_calls inside with inMains | ⟨caller, calls⟩
      · exact ⟨place, name, inMains, .refl⟩
      · obtain ⟨pos, body, inner, isSub, inBody⟩ := calls
        have callerDeclared : caller ∈ script.filterMap declaredSub? := List.mem_filterMap.mpr ⟨_, isSub, rfl⟩
        have higher := down pos caller body isSub inner name inBody
        have bounded : rank caller ≤ bound :=
          most _ (List.mem_toFinset.mpr (List.mem_map.mpr ⟨caller, callerDeclared, rfl⟩))
        obtain ⟨start, first, inMains, path⟩ := ih (bound - rank caller) (by omega) callerDeclared rfl
        exact ⟨start, first, inMains, path.tail ⟨pos, body, inner, isSub, inBody⟩⟩

end Script

/-- The entry reaches all nodes of the graph of a script without unused subs. -/
theorem Builder.rooted_of_unusedSubs_eq_nil {script : Program} {warnings : List String} {raw : Graph}
    (checked : check script = .ok warnings) (used : unusedSubs script = [])
    (built : Builder.rawGraph script = .ok raw) : raw.Rooted := by
  obtain ⟨declarations, _⟩ := Script.exists_check_eq_ok_iff.mp ⟨warnings, checked⟩
  obtain ⟨_, once⟩ := Script.checkDeclarations_eq_ok_iff.mp declarations
  obtain ⟨owned, onward⟩ := Builder.attached_of_rawGraph built
  intro id node found
  obtain ⟨root, listed, reached⟩ := owned id node found
  have live : Live script root := by
    obtain ⟨⟨_, body⟩, isBody, rfl⟩ := List.mem_map.mp listed
    rcases List.mem_cons.mp isBody with same | isSub
    · cases same
      exact .inl rfl
    · obtain ⟨⟨number, name, inner⟩, declared, same⟩ := List.mem_map.mp isSub
      cases same
      obtain ⟨pos, member⟩ := Script.exists_mem_of_mem_subsFrom declared
      refine .inr ⟨name, body, declared, Script.called_of_unusedSubs_eq_nil checked used ?_⟩
      exact List.mem_filterMap.mpr ⟨_, member, rfl⟩
  refine (live.reaches (fun root body isBody place name calls id known => ?_) once).trans reached
  have listed : (place, name) ∈ callsIn body := List.mem_filterMap.mpr ⟨_, calls, rfl⟩
  obtain ⟨target, alsoKnown, path⟩ := onward root body isBody place name listed
  cases known.symm.trans alsoKnown
  exact path

/-- If a script passes the checks without an unused sub, then its graph has no node out of reach, and simplifying drops
no node but those that forward. -/
theorem simplify_drops_nothing {script : Program} {warnings : List String} {raw : Graph}
    (checked : check script = .ok warnings) (used : unusedSubs script = [])
    (built : Builder.rawGraph script = .ok raw) :
    raw.unreachable Graph.entry = [] ∧ raw.flatten.promote.unreachable Graph.entry = [] ∧
      raw.simplify = raw.flatten.promote := by
  have rooted := Builder.rooted_of_unusedSubs_eq_nil checked used built
  have stillRooted := rooted.flatten.promote
  exact ⟨Graph.unreachable_eq_nil_iff.mpr rooted, Graph.unreachable_eq_nil_iff.mpr stillRooted, stillRooted.cull_eq⟩

/-- A sub that only another sub calls, and that one from an `if` with one block. -/
def nestedCalls : Program :=
  [.sub ⟨1, 1⟩ "inner" [.doc ⟨2, 5⟩ "deep"],
    .sub ⟨4, 1⟩ "outer" [.call ⟨5, 5⟩ "inner"],
    .choice ⟨7, 1⟩ [.mk (.named "Pre_battle") [.doc ⟨8, 5⟩ "first", .call ⟨9, 5⟩ "outer"]],
    .doc ⟨11, 1⟩ "last"]

def nestedCallsGraph : Graph :=
  Graph.empty
    |>.insert 2 ⟨.data .empty, [5]⟩
    |>.insert 3 ⟨.data .empty, [9]⟩
    |>.insert 4 ⟨.data .empty, [3]⟩
    |>.insert 5 ⟨.decision "Pre_battle", [6, 8]⟩
    |>.insert 6 ⟨.data .empty, [7]⟩
    |>.insert 7 ⟨.documentation "first", [4]⟩
    |>.insert 8 ⟨.documentation "last", []⟩
    |>.insert 9 ⟨.documentation "deep", []⟩

theorem simplify_drops_nothing_nestedCalls :
    check nestedCalls = .ok [] ∧ unusedSubs nestedCalls = [] ∧ Builder.rawGraph nestedCalls = .ok nestedCallsGraph ∧
      nestedCallsGraph.unreachable Graph.entry = [] ∧
      nestedCallsGraph.flatten.promote.unreachable Graph.entry = [] ∧
      nestedCallsGraph.simplify = nestedCallsGraph.flatten.promote := by
  have checked : check nestedCalls = .ok [] := by cbv
  have used : unusedSubs nestedCalls = [] := by decide +kernel
  have built : Builder.rawGraph nestedCalls = .ok nestedCallsGraph := by decide +kernel
  exact ⟨checked, used, built, simplify_drops_nothing checked used built⟩

end MissionGraph
