import Mathlib.Data.List.Pairwise
import MissionGraph.Script.Check
import MissionGraph.Proofs.Graph.Search
import MissionGraph.Proofs.Success

/-!
# What the checks of a script ensure

A script passes the checks exactly if it declares no name twice, refers to declared names only and has
no back edge between its subs. In such a script subs can be ranked so that every call leads downwards. A back
edge is a call on a circle of calls.
-/

namespace MissionGraph.Script

open Mission (Field)
open Relation

variable {script : Program} {groups subs : List String}

theorem checkNames_eq_ok_iff :
    checkNames groups subs script = .ok () ↔
      (script.filterMap declaredGroup?).Nodup ∧ (∀ name ∈ script.filterMap declaredGroup?, name ∉ groups) ∧
        (script.filterMap declaredSub?).Nodup ∧ ∀ name ∈ script.filterMap declaredSub?, name ∉ subs := by
  fun_induction checkNames groups subs script with
  | case1 => simp
  | case2 groups subs pos group rest known => simp [declaredGroup?, known]
  | case3 groups subs pos group rest unknown ih =>
      rw [ih]
      simp only [List.filterMap_cons, declaredGroup?, declaredSub?, List.nodup_cons, List.mem_cons,
        forall_eq_or_imp, not_or]
      constructor
      · rintro ⟨distinct, fresh, others⟩
        exact ⟨⟨fun again => (fresh _ again).1 rfl, distinct⟩, ⟨unknown, fun name member => (fresh name member).2⟩,
          others⟩
      · rintro ⟨⟨once, distinct⟩, ⟨_, fresh⟩, others⟩
        exact ⟨distinct, fun name member => ⟨fun same => once (same ▸ member), fresh name member⟩, others⟩
  | case4 groups subs pos name body rest known => simp [declaredSub?, known]
  | case5 groups subs pos name body rest unknown ih =>
      rw [ih]
      simp only [List.filterMap_cons, declaredGroup?, declaredSub?, List.nodup_cons, List.mem_cons,
        forall_eq_or_imp, not_or]
      constructor
      · rintro ⟨distinct, fresh, once, others⟩
        exact ⟨distinct, fresh, ⟨fun again => (others _ again).1 rfl, once⟩, unknown,
          fun other member => (others other member).2⟩
      · rintro ⟨distinct, fresh, ⟨once, distinctSubs⟩, _, others⟩
        exact ⟨distinct, fresh, distinctSubs,
          fun other member => ⟨fun same => once (same ▸ member), others other member⟩⟩
  | case6 groups subs statement rest notGroup notSub ih =>
      rw [ih]
      have noGroup : declaredGroup? statement = none := by
        cases statement with
        | group pos group => exact absurd rfl (notGroup pos group)
        | _ => rfl
      have noSub : declaredSub? statement = none := by
        cases statement with
        | sub pos name body => exact absurd rfl (notSub pos name body)
        | _ => rfl
      rw [List.filterMap_cons, noGroup, List.filterMap_cons, noSub]

theorem checkDeclarations_eq_ok_iff :
    checkDeclarations script = .ok () ↔
      (script.filterMap declaredGroup?).Nodup ∧ (script.filterMap declaredSub?).Nodup := by
  rw [checkDeclarations, checkNames_eq_ok_iff]
  simp

theorem checkReferences_eq_ok_iff :
    checkReferences script = .ok () ↔ ∀ statement ∈ Statement.walkBody script,
      referenceFault? (script.filterMap declaredGroup?) (script.filterMap declaredSub?) statement = none := by
  rw [← List.findSome?_eq_none_iff, checkReferences]
  split
  · rename_i fault found
    simp [found]
  · rename_i found
    simp [found]

theorem checkRecursion_eq_ok_iff :
    checkRecursion script = .ok () ↔
      Search.backEdge? (callsOfSub script) Prod.snd (script.filterMap declaredSub?).eraseDups.mergeSort = none := by
  rw [checkRecursion]
  split
  · rename_i found
    simp [found]
  · rename_i found
    simp [found]

theorem exists_check_eq_ok_iff :
    (∃ warnings, check script = .ok warnings) ↔
      checkDeclarations script = .ok () ∧ checkReferences script = .ok () ∧ checkRecursion script = .ok () := by
  constructor
  · rintro ⟨warnings, checked⟩
    obtain ⟨_, declarations, references⟩ := Success.bind_eq_ok_iff.mp checked
    obtain ⟨_, referencesOk, recursion⟩ := Success.bind_eq_ok_iff.mp references
    obtain ⟨_, recursionOk, _⟩ := Success.bind_eq_ok_iff.mp recursion
    exact ⟨declarations, referencesOk, recursionOk⟩
  · rintro ⟨declarations, references, recursion⟩
    refine ⟨(unusedSubs script).map unusedWarning, Success.bind_eq_ok_iff.mpr ⟨(), declarations, ?_⟩⟩
    exact Success.bind_eq_ok_iff.mpr ⟨(), references, Success.bind_eq_ok_iff.mpr ⟨(), recursion, rfl⟩⟩

/-- Two subs of one name are the same statement if no name is declared twice. -/
theorem eq_of_declaredSub? (once : (script.filterMap declaredSub?).Nodup) {first second : Statement Pos}
    (firstListed : first ∈ script) (secondListed : second ∈ script) {name : String}
    (firstNamed : declaredSub? first = some name) (secondNamed : declaredSub? second = some name) :
    first = second := by
  induction script with
  | nil => cases firstListed
  | cons head rest ih =>
      have onceRest : (rest.filterMap declaredSub?).Nodup :=
        once.sublist (List.Sublist.filterMap _ (List.sublist_cons_self head rest))
      have notAgain {other : Statement Pos} (listed : other ∈ rest) (named : declaredSub? other = some name) :
          declaredSub? head ≠ some name := by
        intro sameName
        rw [List.filterMap_cons, sameName] at once
        exact (List.nodup_cons.mp once).1 (List.mem_filterMap.mpr ⟨other, listed, named⟩)
      rcases List.mem_cons.mp firstListed with rfl | firstLater
      · rcases List.mem_cons.mp secondListed with rfl | secondLater
        · rfl
        · exact absurd firstNamed (notAgain secondLater secondNamed)
      · rcases List.mem_cons.mp secondListed with rfl | secondLater
        · exact absurd secondNamed (notAgain firstLater firstNamed)
        · exact ih onceRest firstLater secondLater

/-- The calls of a sub are those in its body. -/
theorem callsOfSub_eq (once : (script.filterMap declaredSub?).Nodup) {pos : Pos} {name : String}
    {body : List (Statement Pos)} (declared : .sub pos name body ∈ script) :
    callsOfSub script name = callsIn body := by
  unfold callsOfSub
  cases found : script.reverse.findSome? _ with
  | none =>
      have unmatched := List.findSome?_eq_none_iff.mp found _ (List.mem_reverse.mpr declared)
      simp at unmatched
  | some calls =>
      obtain ⟨statement, listed, taken⟩ := List.exists_of_findSome?_eq_some found
      split at taken
      · rename_i other declaredName inner
        split at taken
        · rename_i sameName
          have same := eq_of_declaredSub? once (List.mem_reverse.mp listed) declared
            (congrArg some sameName) rfl
          cases same
          cases taken
          rfl
        · cases taken
      · cases taken

/-- One sub calls another one. -/
def Calls (script : Program) (caller called : String) : Prop :=
  ∃ pos body place, .sub pos caller body ∈ script ∧ .call place called ∈ Statement.walkBody body

theorem call_mem_callsIn_iff {body : List (Statement Pos)} {place : Pos} {target : String} :
    (place, target) ∈ callsIn body ↔ .call place target ∈ Statement.walkBody body := by
  rw [callsIn, List.mem_filterMap]
  constructor
  · rintro ⟨statement, inside, isCall⟩
    cases statement with
    | call pos name =>
        cases isCall
        exact inside
    | _ => cases isCall
  · intro inside
    exact ⟨_, inside, rfl⟩

theorem mem_declaredSubs_iff {name : String} :
    name ∈ script.filterMap declaredSub? ↔ ∃ pos body, .sub pos name body ∈ script := by
  rw [List.mem_filterMap]
  constructor
  · rintro ⟨statement, listed, named⟩
    cases statement with
    | sub pos declared body =>
        cases named
        exact ⟨pos, body, listed⟩
    | _ => cases named
  · rintro ⟨pos, body, listed⟩
    exact ⟨_, listed, rfl⟩

/-- The edges that are searched for recursion are the calls from one sub to another. -/
theorem joined_iff_calls (once : (script.filterMap declaredSub?).Nodup) {caller called : String} :
    Search.Joined (callsOfSub script) Prod.snd (script.filterMap declaredSub?).eraseDups.mergeSort caller called ↔
      Calls script caller called := by
  rw [Search.Joined, List.mem_mergeSort, List.mem_eraseDups, mem_declaredSubs_iff]
  constructor
  · rintro ⟨⟨pos, body, listed⟩, ⟨place, target⟩, member, rfl⟩
    rw [callsOfSub_eq once listed] at member
    exact ⟨pos, body, place, listed, call_mem_callsIn_iff.mp member⟩
  · rintro ⟨pos, body, place, listed, inside⟩
    refine ⟨⟨pos, body, listed⟩, (place, called), ?_, rfl⟩
    rw [callsOfSub_eq once listed]
    exact call_mem_callsIn_iff.mpr inside

/-- Subs can be ranked so that every call leads downwards, if the check for recursion passes. -/
theorem exists_rank_of_checkRecursion (once : (script.filterMap declaredSub?).Nodup)
    (passed : checkRecursion script = .ok ()) :
    ∃ rank : String → Nat, ∀ caller called, Calls script caller called → rank called < rank caller := by
  obtain ⟨rank, down⟩ := Search.exists_rank_of_backEdge?_eq_none _ _ _ (checkRecursion_eq_ok_iff.mp passed)
  exact ⟨rank, fun caller called calls => down caller called ((joined_iff_calls once).mpr calls)⟩

/-- Subs can be ranked so that every call leads downwards. -/
theorem exists_rank_of_check {warnings : List String} (checked : check script = .ok warnings) :
    ∃ rank : String → Nat, ∀ pos name body, .sub pos name body ∈ script → ∀ place target,
      .call place target ∈ Statement.walkBody body → rank target < rank name := by
  obtain ⟨declarations, _, recursion⟩ := exists_check_eq_ok_iff.mp ⟨warnings, checked⟩
  obtain ⟨_, once⟩ := checkDeclarations_eq_ok_iff.mp declarations
  obtain ⟨rank, down⟩ := exists_rank_of_checkRecursion once recursion
  refine ⟨rank, fun pos name body declared place target called => ?_⟩
  exact down name target ⟨pos, body, place, declared, called⟩

/-- The fault of the check for recursion is at a call from which calls lead back to the sub that it stands in. -/
theorem circle_of_checkRecursion (once : (script.filterMap declaredSub?).Nodup) {fault : Fault}
    (failed : checkRecursion script = .error fault) :
    ∃ pos caller body target, .sub pos caller body ∈ script ∧ .call fault.pos target ∈ Statement.walkBody body ∧
      fault.cause = .recursiveCall target ∧ ReflTransGen (Calls script) target caller := by
  unfold checkRecursion at failed
  dsimp only at failed
  split at failed
  · rename_i place target found
    cases failed
    obtain ⟨caller, listed, isBack, path⟩ := Search.circle_of_backEdge? _ _ _ found
    rw [List.mem_mergeSort, List.mem_eraseDups, mem_declaredSubs_iff] at listed
    obtain ⟨pos, body, declared⟩ := listed
    rw [callsOfSub_eq once declared] at isBack
    refine ⟨pos, caller, body, target, declared, call_mem_callsIn_iff.mp isBack, rfl, ?_⟩
    exact ReflTransGen.mono (fun _ _ => (joined_iff_calls once).mp) _ _ path
  · cases failed

/-- Subs pass the check for recursion if none of them calls itself over any number of steps. -/
theorem checkRecursion_of_acyclic (once : (script.filterMap declaredSub?).Nodup)
    (acyclic : ∀ name, ¬ TransGen (Calls script) name name) : checkRecursion script = .ok () := by
  cases failed : checkRecursion script with
  | ok => rfl
  | error fault =>
      obtain ⟨pos, caller, body, target, declared, called, _, path⟩ := circle_of_checkRecursion once failed
      exact absurd (TransGen.head' ⟨pos, body, fault.pos, declared, called⟩ path) (acyclic caller)

end MissionGraph.Script
