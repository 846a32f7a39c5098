import MissionGraph.Proofs.Graph.Simplification

/-!
# Isomorphic graphs

Two graphs are isomorphic if they differ in the numbers of their nodes only. What one graph can be folded
to is unique up to isomorphism.
-/

namespace MissionGraph.Graph

/-- The renumbering maps the stored nodes of a graph one to one to those of another one. It keeps the
entry, and the content and the list of children of every node. -/
structure Isomorphism (graph other : Graph) (renumber : NodeId → NodeId) : Prop where
  entry : renumber Graph.entry = Graph.entry
  node : ∀ id node, graph.get? id = some node →
    other.get? (renumber id) = some ⟨node.content, node.children.map renumber⟩
  injective : ∀ first second, graph.contains first = true → graph.contains second = true →
    renumber first = renumber second → first = second
  surjective : ∀ id, other.contains id = true → ∃ old, graph.contains old = true ∧ renumber old = id

/-- Two graphs that a proper graph folds to are isomorphic, if nothing forwards in them and the entry
reaches all their nodes. -/
theorem exists_isomorphism {graph first second : Graph} {place other : NodeId → NodeId} (proper : graph.Proper)
    (foldsFirst : Folds graph first place) (foldedFirst : first.Folded)
    (reachedFirst : ∀ id node, first.get? id = some node → first.Reaches Graph.entry id)
    (foldsSecond : Folds graph second other) (foldedSecond : second.Folded)
    (reachedSecond : ∀ id node, second.get? id = some node → second.Reaches Graph.entry id) :
    ∃ renumber, Isomorphism first second renumber := by
  -- every number of the first graph comes from one kept node, which has a number in the second graph
  have exists_new (id : NodeId) : ∃ new, ∀ key, graph.Kept key → place key = id → other key = new := by
    by_cases comes : ∃ key, graph.Kept key ∧ place key = id
    · obtain ⟨key, kept, rfl⟩ := comes
      exact ⟨other key, fun again keptAgain same => congrArg other (foldsFirst.injective _ _ keptAgain kept same)⟩
    · exact ⟨id, fun key kept same => absurd ⟨key, kept, same⟩ comes⟩
  choose renumber isNew using exists_new
  have renumber_place {id : NodeId} (path : graph.Reaches Graph.entry id) : renumber (place id) = other id := by
    obtain ⟨key, kept, same⟩ := Folds.exists_kept proper path
    rw [← isNew _ key kept (same foldsFirst foldedFirst)]
    exact same foldsSecond foldedSecond
  have exists_origin {id : NodeId} (stored : first.contains id = true) : ∃ key, graph.Kept key ∧ place key = id := by
    obtain ⟨node, found⟩ := contains_iff.mp stored
    exact foldsFirst.origin proper foldedFirst (reachedFirst id node found)
  refine ⟨renumber, ?_, ?_, ?_, ?_⟩
  · have atEntry := renumber_place .refl
    rwa [foldsFirst.entry, foldsSecond.entry] at atEntry
  · intro id node found
    obtain ⟨key, kept, rfl⟩ := exists_origin (contains_iff.mpr ⟨node, found⟩)
    obtain ⟨reached, old, foundOld, stays⟩ := kept
    rw [foldsFirst.get?_of_kept reached foundOld stays] at found
    cases found
    rw [renumber_place reached, foldsSecond.get?_of_kept reached foundOld stays, List.map_map]
    refine congrArg (fun children => some (Node.mk old.content children)) (List.map_congr_left ?_)
    intro child member
    exact (renumber_place (reached.tail (child_of_get? foundOld member))).symm
  · intro one two storedOne storedTwo same
    obtain ⟨keyOne, keptOne, rfl⟩ := exists_origin storedOne
    obtain ⟨keyTwo, keptTwo, rfl⟩ := exists_origin storedTwo
    rw [renumber_place keptOne.1, renumber_place keptTwo.1] at same
    rw [foldsSecond.injective _ _ keptOne keptTwo same]
  · intro id stored
    obtain ⟨node, found⟩ := contains_iff.mp stored
    obtain ⟨key, kept, rfl⟩ := foldsSecond.origin proper foldedSecond (reachedSecond id node found)
    obtain ⟨reached, old, foundOld, stays⟩ := kept
    exact ⟨place key, contains_iff.mpr ⟨_, foldsFirst.get?_of_kept reached foundOld stays⟩, renumber_place reached⟩

end MissionGraph.Graph
