import Mathlib.Logic.Relation
import MissionGraph.Graph.Search
import MissionGraph.Proofs.Success

/-!
# Correctness of the searches

Gathering meets exactly the vertices to which a path of unseen vertices leads. The search for a back
edge finds one if and only if the edges close a circle, and the edge that it returns lies on one.
-/

namespace MissionGraph.Search

open Relation

variable {α ε : Type}

/-! ## Gathering -/

/-- A path over edges all of whose vertices, both ends included, are allowed. -/
inductive PathWithin (next : α → List α) (allowed : α → Prop) : α → α → Prop where
  | here {vertex : α} (inside : allowed vertex) : PathWithin next allowed vertex vertex
  | step {first second last : α} (inside : allowed first) (edge : second ∈ next first)
      (rest : PathWithin next allowed second last) : PathWithin next allowed first last

namespace PathWithin

variable {next : α → List α} {allowed wider : α → Prop} {first last : α}

theorem start (path : PathWithin next allowed first last) : allowed first := by
  cases path with
  | here inside => exact inside
  | step inside _ _ => exact inside

theorem finish (path : PathWithin next allowed first last) : allowed last := by
  induction path with
  | here inside => exact inside
  | step _ _ _ ih => exact ih

theorem mono (path : PathWithin next allowed first last)
    (weaker : ∀ vertex, allowed vertex → wider vertex) : PathWithin next wider first last := by
  induction path with
  | here inside => exact .here (weaker _ inside)
  | step inside edge _ ih => exact .step (weaker _ inside) edge ih

/-- A path either avoids a vertex or can be cut so that it starts behind its last visit there. -/
theorem avoid_or_leave (path : PathWithin next allowed first last) (vertex : α)
    (different : last ≠ vertex) :
    PathWithin next (fun other => allowed other ∧ other ≠ vertex) first last ∨
      ∃ second ∈ next vertex,
        PathWithin next (fun other => allowed other ∧ other ≠ vertex) second last := by
  induction path with
  | here inside => exact .inl (.here ⟨inside, different⟩)
  | @step first second last inside edge rest ih =>
      rcases ih different with avoiding | leaving
      · by_cases same : first = vertex
        · exact .inr ⟨second, same ▸ edge, avoiding⟩
        · exact .inl (.step ⟨inside, same⟩ edge avoiding)
      · exact .inr leaving

theorem reflTransGen (path : PathWithin next allowed first last) :
    ReflTransGen (fun vertex other => other ∈ next vertex) first last := by
  induction path with
  | here _ => exact .refl
  | step _ edge _ ih => exact .head edge ih

end PathWithin

variable [DecidableEq α]

omit [DecidableEq α] in
/-- What is dropped from the front of a list passes the test for dropping. -/
theorem mem_dropWhile_or (test : α → Bool) {values : List α} {value : α} (member : value ∈ values) :
    test value = true ∨ value ∈ values.dropWhile test := by
  induction values with
  | nil => cases member
  | cons first rest ih =>
      rw [List.dropWhile_cons]
      by_cases dropped : test first = true
      · rw [if_pos dropped]
        rcases List.mem_cons.mp member with same | later
        · exact .inl (same ▸ dropped)
        · exact ih later
      · rw [if_neg dropped]
        exact .inr member

theorem nodup_eraseDups (values : List α) : values.eraseDups.Nodup := by
  induction size : values.length using Nat.strongRecOn generalizing values with
  | ind count ih =>
      cases values with
      | nil => exact List.nodup_nil
      | cons first rest =>
          have shorter : (rest.filter fun other => !other == first).length < count := by
            rw [← size, List.length_cons]
            exact Nat.lt_succ_of_le (List.length_filter_le _ _)
          rw [List.eraseDups_cons, List.nodup_cons]
          exact ⟨by simp, ih _ shorter _ rfl⟩

/-- Gathering meets the vertices that a path of unseen vertices joins to a pending one. -/
theorem mem_gather_iff (next : α → List α) (unseen pending : List α) (distinct : unseen.Nodup)
    (vertex : α) :
    vertex ∈ gather next unseen pending ↔
      ∃ start ∈ pending, PathWithin next (· ∈ unseen) start vertex := by
  fun_induction gather next unseen pending with
  | case1 unseen pending left =>
      -- every pending vertex has been seen, so no path can start
      constructor
      · intro member
        cases member
      · rintro ⟨start, isPending, path⟩
        rcases mem_dropWhile_or (fun vertex => decide (vertex ∉ unseen)) isPending with seen | kept
        · exact absurd path.start (by simpa using seen)
        · rw [left] at kept
          cases kept
  | case2 unseen pending opened rest left ih =>
      have inside : opened ∈ unseen := by simpa using not_of_dropWhile_eq_cons left
      have suffix : opened :: rest <:+ pending := left ▸ List.dropWhile_suffix _
      have isPending : opened ∈ pending := suffix.subset List.mem_cons_self
      have erased (other : α) : other ∈ unseen.erase opened ↔ other ∈ unseen ∧ other ≠ opened := by
        rw [distinct.mem_erase_iff, and_comm]
      rw [List.mem_cons, ih (distinct.erase opened)]
      constructor
      · rintro (same | ⟨start, startPending, path⟩)
        · subst same
          exact ⟨vertex, isPending, .here inside⟩
        · have wide := path.mono fun other member => List.mem_of_mem_erase member
          rcases List.mem_append.mp startPending with child | later
          · exact ⟨opened, isPending, .step inside child wide⟩
          · exact ⟨start, suffix.subset (List.mem_cons_of_mem _ later), wide⟩
      · rintro ⟨start, startPending, path⟩
        by_cases same : vertex = opened
        · exact .inl same
        refine .inr ?_
        rcases path.avoid_or_leave opened same with avoiding | ⟨second, child, leaving⟩
        · rcases mem_dropWhile_or (fun vertex => decide (vertex ∉ unseen)) startPending with seen | kept
          · exact absurd path.start (by simpa using seen)
          · rw [left] at kept
            rcases List.mem_cons.mp kept with isOpened | later
            · exact absurd isOpened avoiding.start.2
            · exact ⟨start, List.mem_append_right _ later,
                avoiding.mono fun other => (erased other).mpr⟩
        · exact ⟨second, List.mem_append_left _ child, leaving.mono fun other => (erased other).mpr⟩

/-- No vertex is met twice. -/
theorem nodup_gather (next : α → List α) (unseen pending : List α) (distinct : unseen.Nodup) :
    (gather next unseen pending).Nodup := by
  fun_induction gather next unseen pending with
  | case1 => exact List.nodup_nil
  | case2 unseen pending opened rest left ih =>
      refine List.nodup_cons.mpr ⟨?_, ih (distinct.erase opened)⟩
      intro again
      obtain ⟨start, _, path⟩ :=
        (mem_gather_iff next _ _ (distinct.erase opened) opened).mp again
      exact distinct.not_mem_erase path.finish

/-! ## Back edges -/

/-- The listed vertices with an edge from the first to the second. -/
def Joined (edges : α → List ε) (target : ε → α) (vertices : List α) (first second : α) : Prop :=
  first ∈ vertices ∧ ∃ edge ∈ edges first, target edge = second

/-- In a list of settled vertices all edges lead from a vertex to later ones of the list. -/
inductive Settled (joined : α → α → Prop) : List α → Prop where
  | nil : Settled joined []
  | cons {vertex : α} {finished : List α} (ends : ∀ other, joined vertex other → other ∈ finished)
      (rest : Settled joined finished) : Settled joined (vertex :: finished)

namespace Settled

variable {joined : α → α → Prop} {finished : List α}

omit [DecidableEq α] in
theorem closed (settled : Settled joined finished) {first second : α} (member : first ∈ finished)
    (edge : joined first second) : second ∈ finished := by
  induction settled with
  | nil => cases member
  | cons ends _ ih =>
      rcases List.mem_cons.mp member with same | later
      · subst same
        exact List.mem_cons_of_mem _ (ends _ edge)
      · exact List.mem_cons_of_mem _ (ih later)

/-- Settled vertices can be ranked so that all edges lead downwards. -/
theorem exists_rank (settled : Settled joined finished) :
    ∃ rank : α → Nat, (∀ vertex ∈ finished, rank vertex < finished.length) ∧
      ∀ first ∈ finished, ∀ second, joined first second → rank second < rank first := by
  induction settled with
  | nil => exact ⟨fun _ => 0, fun _ member => absurd member List.not_mem_nil,
      fun _ member => absurd member List.not_mem_nil⟩
  | @cons newest finished ends rest ih =>
      obtain ⟨rank, bound, down⟩ := ih
      -- a vertex that is new in the list gets a rank above all others
      refine ⟨fun vertex => if vertex ∈ finished then rank vertex else finished.length, ?_, ?_⟩
      · intro vertex _
        by_cases old : vertex ∈ finished
        · simp only [if_pos old]
          exact Nat.lt_succ_of_lt (bound vertex old)
        · simp only [if_neg old]
          exact Nat.lt_succ_self _
      · intro first member second edge
        by_cases old : first ∈ finished
        · simp only [if_pos old, if_pos (rest.closed old edge)]
          exact down first old second edge
        · have isNewest : first = newest := by simpa [old] using member
          have inside := ends second (isNewest ▸ edge)
          simp only [if_neg old, if_pos inside]
          exact bound second inside

end Settled

omit [DecidableEq α] in
/-- Exploring ways one after the other settles the end of each of them. -/
theorem explore_ok {β : Type} (target : β → α) {explore : List α → β → Except ε (List α)}
    {joined : α → α → Prop} {list : List β} {finished result : List α}
    (settled : Settled joined finished)
    (one : ∀ finished way result, way ∈ list → Settled joined finished →
      explore finished way = .ok result →
        Settled joined result ∧ finished ⊆ result ∧ target way ∈ result)
    (explored : list.foldlM explore finished = .ok result) :
    Settled joined result ∧ finished ⊆ result ∧ ∀ way ∈ list, target way ∈ result := by
  induction list generalizing finished with
  | nil =>
      cases explored
      exact ⟨settled, fun _ member => member, fun _ member => nomatch member⟩
  | cons edge rest ih =>
      rw [List.foldlM_cons] at explored
      cases first : explore finished edge with
      | error fault =>
          rw [first] at explored
          cases explored
      | ok middle =>
          rw [first] at explored
          obtain ⟨middleSettled, kept, ends⟩ := one _ _ _ List.mem_cons_self settled first
          obtain ⟨resultSettled, middleKept, restEnds⟩ := ih middleSettled
            (fun finished edge result member => one finished edge result (List.mem_cons_of_mem _ member))
            explored
          refine ⟨resultSettled, fun _ member => middleKept (kept member), ?_⟩
          intro other member
          rcases List.mem_cons.mp member with same | later
          · exact same ▸ middleKept ends
          · exact restEnds other later

omit [DecidableEq α] in
/-- If exploring ways fails, then it fails at one of them. -/
theorem explore_error {β : Type} {explore : List α → β → Except ε (List α)} {list : List β}
    {finished : List α} {fault : ε} (explored : list.foldlM explore finished = .error fault) :
    ∃ earlier, ∃ way ∈ list, explore earlier way = .error fault := by
  induction list generalizing finished with
  | nil => cases explored
  | cons edge rest ih =>
      rw [List.foldlM_cons] at explored
      cases first : explore finished edge with
      | error met =>
          rw [first] at explored
          cases explored
          exact ⟨finished, edge, List.mem_cons_self, first⟩
      | ok middle =>
          rw [first] at explored
          obtain ⟨earlier, other, member, failed⟩ := ih explored
          exact ⟨earlier, other, List.mem_cons_of_mem _ member, failed⟩

variable (edges : α → List ε) (target : ε → α) (vertices : List α)

/-- A visit that finds no back edge settles its vertex. Unopened are all listed vertices that the path
has not passed. -/
theorem visit_ok {unopened path finished result : List α} {vertex : α}
    (open_or_passed : ∀ other ∈ vertices, other ∉ path → other ∈ unopened) (off_path : vertex ∉ path)
    (settled : Settled (Joined edges target vertices) finished)
    (visited : visit edges target unopened path finished vertex = .ok result) :
    Settled (Joined edges target vertices) result ∧ finished ⊆ result ∧ vertex ∈ result := by
  induction size : unopened.length using Nat.strongRecOn
    generalizing unopened path finished result vertex with
  | ind count ih =>
      rw [visit] at visited
      split at visited
      · rename_i done
        cases visited
        exact ⟨settled, fun _ member => member, done⟩
      split at visited
      · rename_i isOpen
        obtain ⟨ends, explored, rfl⟩ := Success.map_eq_ok_iff.mp visited
        have smaller := length_erase_lt isOpen
        obtain ⟨endsSettled, kept, reached⟩ := explore_ok target settled
          (fun finished edge result member settled visited => by
            split at visited
            · cases visited
            · rename_i forward
              refine ih _ (size ▸ smaller) ?_ forward settled visited rfl
              intro other listed off
              obtain ⟨different, offPath⟩ := List.ne_and_not_mem_of_not_mem_cons off
              exact (List.mem_erase_of_ne different).mpr (open_or_passed other listed offPath))
          explored
        refine ⟨.cons ?_ endsSettled, fun _ member => List.mem_cons_of_mem _ (kept member),
          List.mem_cons_self⟩
        rintro other ⟨_, edge, member, rfl⟩
        exact reached edge member
      · rename_i notOpen
        cases visited
        refine ⟨.cons ?_ settled, fun _ member => List.mem_cons_of_mem _ member, List.mem_cons_self⟩
        rintro other ⟨listed, _⟩
        exact absurd (open_or_passed vertex listed off_path) notOpen

/-- A visit fails at an edge that leads back to where a path to it starts. -/
theorem visit_error {unopened path finished : List α} {vertex : α} {back : ε}
    (listed : ∀ other ∈ unopened, other ∈ vertices)
    (onPath : ∀ other ∈ path, ReflTransGen (Joined edges target vertices) other vertex)
    (visited : visit edges target unopened path finished vertex = .error back) :
    ∃ last ∈ vertices, back ∈ edges last ∧
      ReflTransGen (Joined edges target vertices) (target back) last := by
  induction size : unopened.length using Nat.strongRecOn
    generalizing unopened path finished vertex with
  | ind count ih =>
      rw [visit] at visited
      split at visited
      · cases visited
      split at visited
      · rename_i isOpen
        have smaller := length_erase_lt isOpen
        obtain ⟨earlier, edge, member, failed⟩ := explore_error (Success.map_eq_error_iff.mp visited)
        split at failed
        · rename_i closing
          cases failed
          refine ⟨vertex, listed vertex isOpen, member, ?_⟩
          rcases List.mem_cons.mp closing with same | passed
          · exact same ▸ .refl
          · exact onPath _ passed
        · refine ih _ (size ▸ smaller) (fun other member => listed other (List.mem_of_mem_erase member))
            ?_ failed rfl
          have last : Joined edges target vertices vertex (target edge) :=
            ⟨listed vertex isOpen, edge, member, rfl⟩
          intro other passed
          rcases List.mem_cons.mp passed with same | earlier
          · exact same ▸ .single last
          · exact (onPath other earlier).tail last
      · cases visited

/-- If no back edge is found, then vertices can be ranked so that all edges lead downwards. -/
theorem exists_rank_of_backEdge?_eq_none (none_found : backEdge? edges target vertices = none) :
    ∃ rank : α → Nat,
      ∀ first second, Joined edges target vertices first second → rank second < rank first := by
  unfold backEdge? at none_found
  cases explored : vertices.foldlM (visit edges target vertices []) [] with
  | error back => simp [explored] at none_found
  | ok finished =>
      obtain ⟨settled, _, all⟩ := explore_ok id (.nil : Settled (Joined edges target vertices) [])
        (fun finished vertex result _ settled visited =>
          visit_ok edges target vertices (fun _ listed _ => listed) List.not_mem_nil settled visited)
        explored
      obtain ⟨rank, _, down⟩ := settled.exists_rank
      exact ⟨rank, fun first second edge => down first (all first edge.1) second edge⟩

/-- A back edge that is found lies on a circle. -/
theorem circle_of_backEdge? {back : ε} (found : backEdge? edges target vertices = some back) :
    ∃ last ∈ vertices, back ∈ edges last ∧
      ReflTransGen (Joined edges target vertices) (target back) last := by
  unfold backEdge? at found
  cases explored : vertices.foldlM (visit edges target vertices []) [] with
  | ok finished => simp [explored] at found
  | error fault =>
      have same : fault = back := by simpa [explored] using found
      subst same
      obtain ⟨earlier, vertex, _, failed⟩ := explore_error explored
      exact visit_error edges target vertices (fun _ member => member)
        (fun _ member => absurd member List.not_mem_nil) failed

omit [DecidableEq α] in
/-- Edges that all lead downwards in some ranking run in no circle. -/
theorem not_circle_of_rank {joined : α → α → Prop} (rank : α → Nat)
    (down : ∀ first second, joined first second → rank second < rank first) (vertex : α) :
    ¬ TransGen joined vertex vertex := by
  have along {first last : α} (path : TransGen joined first last) : rank last < rank first := by
    induction path with
    | single edge => exact down _ _ edge
    | tail _ edge ih => exact Nat.lt_trans (down _ _ edge) ih
  intro circle
  exact Nat.lt_irrefl _ (along circle)

/-! ## Other edges to the same vertices -/

section Renaming

variable {δ : Type} {rename : ε → δ} {target : ε → α} {other : δ → α}

theorem visit_map (ends : ∀ edge, other (rename edge) = target edge) (edges : α → List ε)
    (unopened path finished : List α) (vertex : α) :
    visit (fun vertex => (edges vertex).map rename) other unopened path finished vertex =
      (visit edges target unopened path finished vertex).mapError rename := by
  induction size : unopened.length using Nat.strongRecOn generalizing unopened path finished vertex with
  | ind count ih =>
      rw [visit, visit]
      by_cases known : vertex ∈ finished
      · rw [if_pos known, if_pos known]
        rfl
      rw [if_neg known, if_neg known]
      by_cases opens : vertex ∈ unopened
      · have step (start : List α) (edge : ε) :
            (if other (rename edge) ∈ vertex :: path then Except.error (rename edge)
              else visit (fun vertex => (edges vertex).map rename) other (unopened.erase vertex) (vertex :: path) start
                (other (rename edge))) =
              (if target edge ∈ vertex :: path then Except.error edge
                else visit edges target (unopened.erase vertex) (vertex :: path) start (target edge)).mapError rename := by
          rw [ends]
          split
          · rfl
          · exact ih _ (size ▸ length_erase_lt opens) _ _ _ _ rfl
        rw [dif_pos opens, dif_pos opens, List.foldlM_map, Success.foldlM_mapError step, Success.map_mapError]
      · rw [dif_neg opens, dif_neg opens]
        rfl

/-- Edges under other names close a circle where they did before. -/
theorem backEdge?_map (ends : ∀ edge, other (rename edge) = target edge) (edges : α → List ε) (vertices : List α) :
    backEdge? (fun vertex => (edges vertex).map rename) other vertices =
      (backEdge? edges target vertices).map rename := by
  unfold backEdge?
  rw [Success.foldlM_mapError fun start vertex => visit_map ends edges vertices [] start vertex]
  cases vertices.foldlM (visit edges target vertices []) [] <;> rfl

end Renaming

end MissionGraph.Search
