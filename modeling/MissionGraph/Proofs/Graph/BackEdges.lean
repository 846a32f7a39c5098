import MissionGraph.Proofs.Graph.Halting

/-!
# The search for a cycle

The search for a back edge is a loop over a stack: the path that the search is on, with the edges that are left at each
of its vertices. A step takes the next edge of the last vertex, or leaves that vertex as finished, and knows nothing of
the measure that makes the definition end. Wherever the edges lead, the loop comes to its last state and has then found
what `backEdge?` returns. Over the children of a graph it finds nothing exactly if the graph has no cycle, and a number
that it finds leads back to itself.
-/

namespace MissionGraph

open Relation

/-- Steps up to a state without a further one are the loop. -/
theorem halts_of_steps {σ : Type} {step : σ → Option σ} {state last : σ}
    (steps : ReflTransGen (fun before after => step before = some after) state last) (done : step last = none) :
    Halts step state last := by
  induction steps using ReflTransGen.head_induction_on with
  | refl => exact .stop done
  | head goes _ ih => exact .next goes ih

namespace Search

/-- A search on its way, or the back edge that it has found. On its way it has the path that it is on, the last vertex
first and each with the edges left there, the vertices left to start from, and the finished vertices. -/
inductive Hunt (α ε : Type) where
  | onWay (path : List (α × List ε)) (starts finished : List α)
  | found (back : ε)

variable {α ε : Type}

namespace Hunt

/-- The edge that has been found. -/
def back? : Hunt α ε → Option ε
  | .onWay _ _ _ => none
  | .found back => some back

/-- Where the search is after a part of it: on its way with more finished vertices, or at the edge found there. -/
def resume (next : List α → Hunt α ε) : Except ε (List α) → Hunt α ε
  | .ok finished => next finished
  | .error back => .found back

theorem resume_map (next : List α → Hunt α ε) (change : List α → List α) (part : Except ε (List α)) :
    resume next (part.map change) = resume (fun finished => next (change finished)) part := by
  cases part <;> rfl

end Hunt

variable [DecidableEq α] {edges : α → List ε} {target : ε → α}

/-- Without a path, the next vertex to start from is opened unless it is finished. On a path, the last vertex is finished
if no edge is left there. Otherwise its next edge is a back edge, or leads to a finished vertex and is dropped, or leads
to a vertex that is opened at the end of the path. -/
def huntStep (edges : α → List ε) (target : ε → α) : Hunt α ε → Option (Hunt α ε)
  | .found _ => none
  | .onWay [] [] _ => none
  | .onWay [] (start :: starts) finished =>
      if start ∈ finished then some (.onWay [] starts finished)
      else some (.onWay [(start, edges start)] starts finished)
  | .onWay ((vertex, []) :: path) starts finished => some (.onWay path starts (vertex :: finished))
  | .onWay ((vertex, edge :: rest) :: path) starts finished =>
      if target edge ∈ vertex :: path.map Prod.fst then some (.found edge)
      else if target edge ∈ finished then some (.onWay ((vertex, rest) :: path) starts finished)
      else some (.onWay ((target edge, edges (target edge)) :: (vertex, rest) :: path) starts finished)

/-- The search gets from one state to another. -/
def Leads (edges : α → List ε) (target : ε → α) : Hunt α ε → Hunt α ε → Prop :=
  ReflTransGen fun before after => huntStep edges target before = some after

/-- The edges left at a vertex are explored one after the other, then the vertex is finished. -/
theorem leads_edges {explore : List α → ε → Except ε (List α)} {starts : List α} {vertex : α}
    {path : List (α × List ε)} {finished : List α} (left : List ε)
    (one : ∀ finished edge rest, Leads edges target (.onWay ((vertex, edge :: rest) :: path) starts finished)
      (.resume (.onWay ((vertex, rest) :: path) starts) (explore finished edge))) :
    Leads edges target (.onWay ((vertex, left) :: path) starts finished)
      (.resume (fun finished => .onWay path starts (vertex :: finished)) (left.foldlM explore finished)) := by
  induction left generalizing finished with
  | nil =>
      apply ReflTransGen.single
      rfl
  | cons edge rest ih =>
      rw [List.foldlM_cons]
      refine (one finished edge rest).trans ?_
      cases explore finished edge with
      | error back => exact .refl
      | ok middle => exact ih

/-- The stack machine does what `visit` does: a vertex that is opened at the end of the path is finished there, or a back
edge is found. Vertices that are neither unopened nor on the path have no edges. -/
theorem leads_visit {starts unopened : List α} {path : List (α × List ε)} {finished : List α} {vertex : α}
    (bare : ∀ other, other ∉ unopened → other ∉ path.map Prod.fst → edges other = [])
    (fresh : vertex ∉ finished) (off_path : vertex ∉ path.map Prod.fst) :
    Leads edges target (.onWay ((vertex, edges vertex) :: path) starts finished)
      (.resume (.onWay path starts) (visit edges target unopened (path.map Prod.fst) finished vertex)) := by
  induction size : unopened.length using Nat.strongRecOn generalizing unopened path finished vertex with
  | ind count ih =>
      rw [visit, if_neg fresh]
      by_cases opens : vertex ∈ unopened
      · rw [dif_pos opens, Hunt.resume_map]
        apply leads_edges
        intro finished edge rest
        by_cases closing : target edge ∈ vertex :: path.map Prod.fst
        · rw [if_pos closing]
          apply ReflTransGen.single
          exact if_pos closing
        rw [if_neg closing]
        by_cases known : target edge ∈ finished
        · rw [visit, if_pos known]
          apply ReflTransGen.single
          exact (if_neg closing).trans (if_pos known)
        · have opened : huntStep edges target (.onWay ((vertex, edge :: rest) :: path) starts finished) =
              some (.onWay ((target edge, edges (target edge)) :: (vertex, rest) :: path) starts finished) :=
            (if_neg closing).trans (if_neg known)
          refine .head opened (ih _ (size ▸ length_erase_lt opens) ?_ known closing rfl)
          intro other closed off
          obtain ⟨different, offPath⟩ := List.ne_and_not_mem_of_not_mem_cons off
          exact bare other (fun isOpen => closed ((List.mem_erase_of_ne different).mpr isOpen)) offPath
      · rw [dif_neg opens, bare vertex opens off_path]
        apply ReflTransGen.single
        rfl

/-- The vertices to start from are visited one after the other. -/
theorem leads_starts {vertices finished : List α} (bare : ∀ other, other ∉ vertices → edges other = [])
    (starts : List α) :
    Leads edges target (.onWay [] starts finished)
      (.resume (.onWay [] []) (starts.foldlM (visit edges target vertices []) finished)) := by
  induction starts generalizing finished with
  | nil => exact .refl
  | cons start rest ih =>
      rw [List.foldlM_cons]
      by_cases known : start ∈ finished
      · rw [visit, if_pos known]
        exact .head (if_pos known) ih
      · refine .head (if_neg known) ((leads_visit (fun other closed _ => bare other closed) known
          List.not_mem_nil).trans ?_)
        rw [List.map_nil]
        cases visit edges target vertices [] finished start with
        | error back => exact .refl
        | ok middle => exact ih

/-- The loop comes to its last state, if vertices that are not listed have no edges, and has then found the back edge. -/
theorem halts_backEdge? (edges : α → List ε) (target : ε → α) (vertices : List α)
    (bare : ∀ other, other ∉ vertices → edges other = []) :
    ∃ last, Halts (huntStep edges target) (.onWay [] vertices []) last ∧
      last.back? = backEdge? edges target vertices := by
  have steps : Leads edges target (.onWay [] vertices []) _ := leads_starts bare vertices
  unfold backEdge?
  cases explored : vertices.foldlM (visit edges target vertices []) [] with
  | error back =>
      rw [explored] at steps
      exact ⟨_, halts_of_steps steps rfl, rfl⟩
  | ok finished =>
      rw [explored] at steps
      exact ⟨_, halts_of_steps steps rfl, rfl⟩

end Search

namespace Graph

theorem children_of_not_mem_ids {graph : Graph} {id : NodeId} (unstored : id ∉ graph.ids) : graph.children id = [] := by
  refine List.eq_nil_iff_forall_not_mem.mpr fun child edge => unstored ?_
  obtain ⟨node, found, _⟩ := get?_of_mem_children edge
  exact mem_ids_iff.mpr ⟨node, found⟩

/-- A number that the search finds leads back to itself. -/
theorem transGen_of_findCycle? {graph : Graph} {id : NodeId} (found : graph.findCycle? = some id) :
    TransGen graph.Child id id := by
  obtain ⟨last, _, edge, path⟩ := Search.circle_of_backEdge? graph.children _ graph.ids found
  have back : graph.Reaches id last := ReflTransGen.mono (fun _ _ => joined_iff_child.mp) _ _ path
  exact .tail' back edge

/-- The search for a cycle comes to an end in every graph, with or without children that are not stored, and whether or
not they are repeated. It finds nothing exactly if no number leads back to itself over children of stored nodes, and
otherwise a number that does. -/
theorem cycle_search_exact (graph : Graph) :
    (∃ last, Halts (Search.huntStep graph.children id) (.onWay [] graph.ids []) last ∧
        last.back? = graph.findCycle?) ∧
      (graph.findCycle? = none ↔ graph.Acyclic) ∧
      ∀ id, graph.findCycle? = some id → TransGen graph.Child id id := by
  refine ⟨?_, findCycle?_eq_none_iff, fun id found => transGen_of_findCycle? found⟩
  exact Search.halts_backEdge? graph.children id graph.ids fun other => children_of_not_mem_ids

end Graph

end MissionGraph
