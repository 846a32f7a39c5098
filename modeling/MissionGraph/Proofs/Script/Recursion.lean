import MissionGraph.Proofs.Build.Program
import MissionGraph.Proofs.Script.Checks

/-!
# Recursion between subs

One sub calls another if such a call stands anywhere in its body. The check for recursion accepts a script exactly if no
sub calls itself over any number of declared subs, wherever the subs are used and whatever else they call. The fault that
it reports names the target of a call on such a circle, at the place of that call.
-/

namespace MissionGraph.Script

open Relation

variable {α : Type}

/-! ## Statements at any depth -/

/-- The statement stands in a list, at any depth: in the list itself, in the body of a sub, or in a block of an `if`. -/
inductive Statement.Within (inner : Statement α) : List (Statement α) → Prop where
  | here {list : List (Statement α)} (member : inner ∈ list) : Within inner list
  | sub {note : α} {name : String} {body list : List (Statement α)} (member : .sub note name body ∈ list)
      (deeper : Within inner body) : Within inner list
  | block {note : α} {blocks : List (Block α)} {block : Block α} {list : List (Statement α)}
      (member : .choice note blocks ∈ list) (isBlock : block ∈ blocks) (deeper : Within inner block.body) :
      Within inner list

theorem mem_walkBody_of_within {inner : Statement α} {list : List (Statement α)} (within : inner.Within list) :
    inner ∈ Statement.walkBody list := by
  induction within with
  | here member => exact mem_walkBody_of_mem member
  | sub member _ ih => exact mem_walkBody_of_mem_walk member (List.mem_cons_of_mem _ ih)
  | block member isBlock _ ih =>
      exact mem_walkBody_of_mem_walk member (List.mem_cons_of_mem _ (mem_walkBlocks_of_mem isBlock ih))

mutual

theorem within_of_mem_walk {inner statement : Statement α} {list : List (Statement α)} (listed : statement ∈ list)
    (member : inner ∈ statement.walk) : inner.Within list := by
  match statement with
  | .sub note name body =>
      rcases List.mem_cons.mp member with rfl | inside
      · exact .here listed
      · exact .sub listed (within_of_mem_walkBody (fun _ member => member) inside)
  | .choice note blocks =>
      rcases List.mem_cons.mp member with rfl | inside
      · exact .here listed
      · obtain ⟨block, isBlock, deeper⟩ := within_of_mem_walkBlocks inside
        exact .block listed isBlock deeper
  | .group _ _ | .call _ _ | .unimplemented _ | .doc _ _ | .field _ _ =>
      rw [List.mem_singleton.mp member]
      exact .here listed

/-- The part of the list that is walked through lies in the list that contains it. -/
theorem within_of_mem_walkBody {inner : Statement α} {part list : List (Statement α)} (subset : part ⊆ list)
    (member : inner ∈ Statement.walkBody part) : inner.Within list := by
  match part with
  | [] => cases member
  | statement :: rest =>
      obtain ⟨listed, restListed⟩ := List.cons_subset.mp subset
      rcases List.mem_append.mp member with inFirst | inRest
      · exact within_of_mem_walk listed inFirst
      · exact within_of_mem_walkBody restListed inRest

theorem within_of_mem_walkBlocks {inner : Statement α} {blocks : List (Block α)}
    (member : inner ∈ Statement.walkBlocks blocks) : ∃ block ∈ blocks, inner.Within block.body := by
  match blocks with
  | [] => cases member
  | .mk condition body :: rest =>
      rcases List.mem_append.mp member with inFirst | inRest
      · exact ⟨.mk condition body, List.mem_cons_self, within_of_mem_walkBody (fun _ member => member) inFirst⟩
      · obtain ⟨block, isBlock, deeper⟩ := within_of_mem_walkBlocks inRest
        exact ⟨block, List.mem_cons_of_mem _ isBlock, deeper⟩

end

theorem mem_walkBody_iff_within {inner : Statement α} {list : List (Statement α)} :
    inner ∈ Statement.walkBody list ↔ inner.Within list :=
  ⟨within_of_mem_walkBody fun _ member => member, mem_walkBody_of_within⟩

/-! ## Circles of calls -/

variable {script : Program} {caller called : String}

/-- The body of one declared sub contains, at any depth, a call of another declared sub. -/
def CallsDeclared (script : Program) (caller called : String) : Prop :=
  (∃ pos body place, .sub pos caller body ∈ script ∧ (Statement.call place called).Within body) ∧
    ∃ pos body, .sub pos called body ∈ script

/-- The call at a place stands in the body of a sub to which calls lead back from its target. -/
def OnCircle (script : Program) (place : Pos) (target : String) : Prop :=
  ∃ pos caller body, .sub pos caller body ∈ script ∧ (Statement.call place target).Within body ∧
    CallsDeclared script caller target ∧ ReflTransGen (CallsDeclared script) target caller

theorem callsDeclared_iff :
    CallsDeclared script caller called ↔ Calls script caller called ∧ ∃ pos body, .sub pos called body ∈ script := by
  simp only [CallsDeclared, Calls, mem_walkBody_iff_within]

/-- On the way to a declared sub, all subs that are called are declared, since they call others. -/
theorem reflTransGen_callsDeclared (path : ReflTransGen (Calls script) caller called)
    (declared : ∃ pos body, .sub pos called body ∈ script) : ReflTransGen (CallsDeclared script) caller called := by
  induction path with
  | refl => exact .refl
  | tail _ calls ih =>
      obtain ⟨pos, body, _, listed, _⟩ := id calls
      exact (ih ⟨pos, body, listed⟩).tail (callsDeclared_iff.mpr ⟨calls, declared⟩)

theorem onCircle_of_checkRecursion (once : (script.filterMap declaredSub?).Nodup) {fault : Fault}
    (failed : checkRecursion script = .error fault) :
    ∃ target, fault.cause = .recursiveCall target ∧ OnCircle script fault.pos target := by
  obtain ⟨pos, caller, body, target, listed, called, cause, path⟩ := circle_of_checkRecursion once failed
  have calls : Calls script caller target := ⟨pos, body, fault.pos, listed, called⟩
  -- the target is the caller itself or calls another sub on the way back
  have declared : ∃ pos body, .sub pos target body ∈ script := by
    rcases ReflTransGen.cases_head path with rfl | ⟨_, ⟨place, inner, _, isDeclared, _⟩, _⟩
    · exact ⟨pos, body, listed⟩
    · exact ⟨place, inner, isDeclared⟩
  exact ⟨target, cause, pos, caller, body, listed, mem_walkBody_iff_within.mp called,
    callsDeclared_iff.mpr ⟨calls, declared⟩, reflTransGen_callsDeclared path ⟨pos, body, listed⟩⟩

/-- If no sub is declared twice, then the check for recursion accepts a script exactly if calls between declared subs run
in no circle. Otherwise it names the target of a call on a circle, at the place of that call. -/
theorem checkRecursion_exact (once : (script.filterMap declaredSub?).Nodup) :
    (checkRecursion script = .ok () ↔ ∀ name, ¬ TransGen (CallsDeclared script) name name) ∧
      ∀ fault, checkRecursion script = .error fault →
        ∃ target, fault.cause = .recursiveCall target ∧
          fault.cause.message = "Recursive call to sub '" ++ target ++ "'" ∧ OnCircle script fault.pos target := by
  refine ⟨⟨?_, ?_⟩, ?_⟩
  · intro passed
    obtain ⟨rank, down⟩ := exists_rank_of_checkRecursion once passed
    exact Search.not_circle_of_rank rank fun first last calls => down first last (callsDeclared_iff.mp calls).1
  · intro acyclic
    cases failed : checkRecursion script with
    | ok => rfl
    | error fault =>
        obtain ⟨target, _, _, caller, _, _, _, calls, path⟩ := onCircle_of_checkRecursion once failed
        exact absurd (TransGen.head' calls path) (acyclic caller)
  · intro fault failed
    obtain ⟨target, cause, onCircle⟩ := onCircle_of_checkRecursion once failed
    exact ⟨target, cause, by rw [cause]; rfl, onCircle⟩

/-- Two subs call each other, one of them inside an `if` and next to a call of a sub that is not declared. Nothing else
calls them. -/
def mutualCalls : Program :=
  [.sub ⟨1, 1⟩ "a" [.call ⟨2, 3⟩ "nowhere",
      .choice ⟨3, 3⟩ [.mk (.named "Pre_battle") [.call ⟨4, 5⟩ "b"], .mk .otherwise []]],
    .sub ⟨7, 1⟩ "b" [.call ⟨8, 3⟩ "a"], .doc ⟨10, 1⟩ "intro"]

theorem checkRecursion_exact_mutualCalls :
    (mutualCalls.filterMap declaredSub?).Nodup ∧ ∃ fault target, checkRecursion mutualCalls = .error fault ∧
      fault.cause = .recursiveCall target ∧ OnCircle mutualCalls fault.pos target := by
  have once : (mutualCalls.filterMap declaredSub?).Nodup := by decide
  obtain ⟨accepts, refuses⟩ := checkRecursion_exact once
  have forth : CallsDeclared mutualCalls "a" "b" := by
    refine ⟨⟨⟨1, 1⟩, _, ⟨4, 5⟩, List.mem_cons_self, ?_⟩, _, _, List.mem_cons_of_mem _ List.mem_cons_self⟩
    exact .block (List.mem_cons_of_mem _ List.mem_cons_self) List.mem_cons_self (.here List.mem_cons_self)
  have back : CallsDeclared mutualCalls "b" "a" :=
    ⟨⟨⟨7, 1⟩, _, ⟨8, 3⟩, List.mem_cons_of_mem _ List.mem_cons_self, .here List.mem_cons_self⟩, _, _, List.mem_cons_self⟩
  refine ⟨once, ?_⟩
  cases checked : checkRecursion mutualCalls with
  | ok => exact absurd (TransGen.tail (.single forth) back) (accepts.mp checked "a")
  | error fault =>
      obtain ⟨target, cause, _, onCircle⟩ := refuses fault checked
      exact ⟨fault, target, rfl, cause, onCircle⟩

end MissionGraph.Script
