import MissionGraph.Graph.Simplify
import MissionGraph.Proofs.Graph.Paths

/-!
# Loops over a graph end

Bypassing forwarding nodes, promoting the child of the entry and searching for the reachable nodes are loops. Each of
them is given as a step that knows nothing of the measure that makes the definition end, and comes to its last state
whatever the graph looks like.
-/

namespace MissionGraph

/-! ## Loops -/

/-- The loop that repeats a step as long as there is one comes to its last state. -/
inductive Halts {σ : Type} (step : σ → Option σ) : σ → σ → Prop where
  | stop {state : σ} (done : step state = none) : Halts step state state
  | next {state following last : σ} (goes : step state = some following) (rest : Halts step following last) :
      Halts step state last

/-- What every step keeps holds of the last state, from which there is no step. -/
theorem Halts.keeps {σ : Type} {step : σ → Option σ} {holds : σ → Prop} {state last : σ} (halts : Halts step state last)
    (start : holds state) (kept : ∀ before after, holds before → step before = some after → holds after) :
    holds last ∧ step last = none := by
  induction halts with
  | stop done => exact ⟨start, done⟩
  | next goes rest ih => exact ih (kept _ _ start goes)

/-- The values that a loop can come to are on one of two lists: those that are left and those that it has met. -/
structure Parted {α : Type} (occurs : α → Prop) (left met : List α) : Prop where
  nodup : left.Nodup
  covers : ∀ value, occurs value → value ∈ left ∨ value ∈ met
  apart : ∀ value ∈ left, value ∉ met

namespace Parted

variable {α : Type} {occurs : α → Prop} {left met : List α} {value : α}

theorem mem_left_iff (parted : Parted occurs left met) (occurring : occurs value) : value ∈ left ↔ value ∉ met :=
  ⟨parted.apart value, (parted.covers value occurring).resolve_right⟩

/-- A value that is met passes from one list to the other. -/
theorem move [DecidableEq α] (parted : Parted occurs left met) (value : α) :
    Parted occurs (left.erase value) (met ++ [value]) where
  nodup := parted.nodup.erase value
  covers other occurring := by
    by_cases same : other = value
    · exact .inr (List.mem_append_right _ (List.mem_singleton.mpr same))
    · exact (parted.covers other occurring).imp (List.mem_erase_of_ne same).mpr (List.mem_append_left _)
  apart other listed isMet := by
    obtain ⟨different, isLeft⟩ := parted.nodup.mem_erase_iff.mp listed
    rcases List.mem_append.mp isMet with before | last
    · exact parted.apart other isLeft before
    · exact different (List.mem_singleton.mp last)

end Parted

/-! ## Simplifying the graph -/

namespace Search

variable {α : Type} [DecidableEq α] {next : α → List α} {occurs : α → Prop}

/-- Takes the first vertex from the stack; if it has not been met before, its successors are put there. -/
def gatherStep (next : α → List α) : List α × List α → Option (List α × List α)
  | ([], _) => none
  | (vertex :: pending, met) =>
      if vertex ∈ met then some (pending, met) else some (next vertex ++ pending, met ++ [vertex])

/-- Vertices at the front of the stack that have been met are skipped. -/
theorem halts_of_dropWhile {pending met : List α} {last : List α × List α} (test : α → Bool)
    (skipped : ∀ vertex ∈ pending, test vertex = true → vertex ∈ met)
    (rest : Halts (gatherStep next) (pending.dropWhile test, met) last) :
    Halts (gatherStep next) (pending, met) last := by
  induction pending with
  | nil => exact rest
  | cons vertex others ih =>
      rw [List.dropWhile_cons] at rest
      split at rest
      · rename_i passes
        refine .next ?_ (ih (fun other listed => skipped other (List.mem_cons_of_mem _ listed)) rest)
        rw [gatherStep, if_pos (skipped vertex List.mem_cons_self passes)]
      · exact rest

theorem mem_met_of_skipped {unseen pending met : List α} (parted : Parted occurs unseen met)
    (pendingOccurs : ∀ vertex ∈ pending, occurs vertex) :
    ∀ vertex ∈ pending, decide (vertex ∉ unseen) = true → vertex ∈ met := by
  intro vertex listed isSeen
  exact (parted.covers vertex (pendingOccurs vertex listed)).resolve_left (of_decide_eq_true isSeen)

/-- The search ends, if all vertices that can come up are unseen or met. -/
theorem halts_gather {unseen pending met : List α} (parted : Parted occurs unseen met)
    (pendingOccurs : ∀ vertex ∈ pending, occurs vertex)
    (nextOccurs : ∀ vertex, ∀ other ∈ next vertex, occurs other) :
    Halts (gatherStep next) (pending, met) ([], met ++ gather next unseen pending) := by
  fun_induction gather next unseen pending generalizing met with
  | case1 unseen pending none_left =>
      rw [List.append_nil]
      refine halts_of_dropWhile _ (mem_met_of_skipped parted pendingOccurs) ?_
      rw [none_left]
      exact .stop rfl
  | case2 unseen pending vertex rest found ih =>
      have isUnseen : vertex ∈ unseen := by simpa using not_of_dropWhile_eq_cons found
      have restOccurs : ∀ other ∈ rest, occurs other := fun other listed =>
        pendingOccurs other ((List.dropWhile_sublist _).subset (found ▸ List.mem_cons_of_mem _ listed))
      have run := ih (parted.move vertex) (List.forall_mem_append.mpr ⟨nextOccurs vertex, restOccurs⟩)
      rw [List.append_assoc] at run
      refine halts_of_dropWhile _ (mem_met_of_skipped parted pendingOccurs) ?_
      rw [found]
      refine .next ?_ run
      rw [gatherStep, if_neg (parted.apart vertex isUnseen)]

end Search

namespace Graph

/-- Bypasses the first forwarding node other than the entry. -/
def flattenStep (graph : Graph) : Option Graph :=
  graph.firstForwarding?.map fun (id, child) => graph.replace id child

/-- Puts the child of a forwarding entry in its place. -/
def promoteStep (graph : Graph) : Option Graph :=
  ((graph.get? entry).bind Node.forwardsTo?).map fun child => (graph.remove entry).rename child entry

theorem halts_flatten (graph : Graph) : Halts flattenStep graph graph.flatten := by
  fun_induction flatten graph with
  | case1 graph none_found =>
      apply Halts.stop
      rw [flattenStep, none_found]
      rfl
  | case2 graph id child found ih =>
      refine .next ?_ ih
      rw [flattenStep, found]
      rfl

theorem halts_promote (graph : Graph) : Halts promoteStep graph graph.promote := by
  fun_induction promote graph with
  | case1 graph none_found =>
      apply Halts.stop
      rw [promoteStep, none_found]
      rfl
  | case2 graph child found ih =>
      refine .next ?_ ih
      rw [promoteStep, found]
      rfl

/-- The search from a root ends, whether edges run in circles or lead to nodes that are not stored. -/
theorem halts_reachable_from (graph : Graph) (root : NodeId) :
    ∃ met, Halts (Search.gatherStep graph.children) ([root], []) ([], met) ∧
      graph.reachable root = met.mergeSort := by
  refine ⟨Search.gather graph.children (graph.mentioned root) [root], ?_, rfl⟩
  have parted : Parted (· ∈ graph.mentioned root) (graph.mentioned root) [] :=
    ⟨graph.nodup_mentioned root, fun _ listed => .inl listed, fun _ _ => List.not_mem_nil⟩
  refine Search.halts_gather parted (List.forall_mem_singleton.mpr ?_) fun _ _ edge => mem_mentioned_of_child edge
  rw [mentioned, List.mem_eraseDups]
  exact List.mem_cons_self

theorem halts_reachable (graph : Graph) :
    ∃ met, Halts (Search.gatherStep graph.children) ([entry], []) ([], met) ∧
      graph.reachable entry = met.mergeSort :=
  graph.halts_reachable_from entry

end Graph

end MissionGraph
