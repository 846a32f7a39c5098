/-!
# Searches in directed graphs

Two searches over vertices of any type. Both keep a list of the vertices that they have not opened
yet, which becomes shorter with every vertex that they open; this is why they end, also where edges
run in circles.
-/

namespace MissionGraph.Search

variable {α ε : Type} [DecidableEq α]

omit [DecidableEq α] in
/-- The first element that is left after dropping fails the test for dropping. -/
theorem not_of_dropWhile_eq_cons {test : α → Bool} {values rest : List α} {value : α}
    (left : values.dropWhile test = value :: rest) : test value = false := by
  induction values with
  | nil => cases left
  | cons first others ih =>
      rw [List.dropWhile_cons] at left
      by_cases dropped : test first = true
      · exact ih (by simpa [dropped] using left)
      · have same : first = value := by simp_all
        exact same ▸ eq_false_of_ne_true dropped

theorem length_erase_lt {value : α} {values : List α} (member : value ∈ values) :
    (values.erase value).length < values.length := by
  have positive := List.length_pos_of_mem member
  rw [List.length_erase_of_mem member]
  omega

/-- The vertices met from the pending ones on, in depth-first order. Only unseen vertices are met,
each of them once. -/
def gather (next : α → List α) (unseen pending : List α) : List α :=
  match _left : pending.dropWhile fun vertex => decide (vertex ∉ unseen) with
  | [] => []
  | vertex :: rest => vertex :: gather next (unseen.erase vertex) (next vertex ++ rest)
termination_by unseen.length
decreasing_by
  have seen := not_of_dropWhile_eq_cons _left
  exact length_erase_lt (by simpa using seen)

/-- Explores the edges from a vertex on. The path leads to the vertex, the finished vertices have been
explored already, and edges start at unopened vertices only. The result is the first edge that leads
back onto the path, or the vertices finished now. -/
def visit (edges : α → List ε) (target : ε → α) (unopened path finished : List α) (vertex : α) :
    Except ε (List α) :=
  if vertex ∈ finished then .ok finished
  else if _member : vertex ∈ unopened then
    ((edges vertex).foldlM
      (fun finished edge =>
        if target edge ∈ vertex :: path then .error edge
        else visit edges target (unopened.erase vertex) (vertex :: path) finished (target edge))
      finished).map (vertex :: ·)
  else .ok (vertex :: finished)
termination_by unopened.length
decreasing_by exact length_erase_lt _member

/-- The first edge, in depth-first order from the listed vertices on, that closes a circle. Vertices
that are not listed have no edges. -/
def backEdge? (edges : α → List ε) (target : ε → α) (vertices : List α) : Option ε :=
  match vertices.foldlM (visit edges target vertices []) [] with
  | .error edge => some edge
  | .ok _ => none

end MissionGraph.Search
