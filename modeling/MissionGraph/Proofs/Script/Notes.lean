import MissionGraph.Script.Check

/-!
# Statements with other notes

A parsed script has the places of its statements as notes, a script that is written has none. With other
notes, or without any, a script has the same conditions, the same declarations and the same statements inside it.
-/

namespace MissionGraph.Script

mutual

/-- The statement without the notes in it. -/
def Statement.erase {α : Type} : Statement α → Statement Unit
  | .sub _ name body => .sub () name (eraseBody body)
  | .group _ group => .group () group
  | .choice _ blocks => .choice () (eraseBlocks blocks)
  | .call _ name => .call () name
  | .unimplemented _ => .unimplemented ()
  | .doc _ name => .doc () name
  | .field _ field => .field () field

def eraseBody {α : Type} : List (Statement α) → List (Statement Unit)
  | [] => []
  | statement :: rest => statement.erase :: eraseBody rest

def eraseBlocks {α : Type} : List (Block α) → List (Block Unit)
  | [] => []
  | .mk condition body :: rest => .mk condition (eraseBody body) :: eraseBlocks rest

end

mutual

/-- The statement with other notes, also on the statements in it. -/
def Statement.mapNotes {α β : Type} (f : α → β) : Statement α → Statement β
  | .sub note name body => .sub (f note) name (mapNotesBody f body)
  | .group note group => .group (f note) group
  | .choice note blocks => .choice (f note) (mapNotesBlocks f blocks)
  | .call note name => .call (f note) name
  | .unimplemented note => .unimplemented (f note)
  | .doc note name => .doc (f note) name
  | .field note field => .field (f note) field

def mapNotesBody {α β : Type} (f : α → β) : List (Statement α) → List (Statement β)
  | [] => []
  | statement :: rest => statement.mapNotes f :: mapNotesBody f rest

def mapNotesBlocks {α β : Type} (f : α → β) : List (Block α) → List (Block β)
  | [] => []
  | .mk condition body :: rest => .mk condition (mapNotesBody f body) :: mapNotesBlocks f rest

end

variable {α β : Type}

theorem map_condition_mapNotesBlocks (f : α → β) (blocks : List (Block α)) :
    (mapNotesBlocks f blocks).map Block.condition = blocks.map Block.condition := by
  induction blocks with
  | nil => rfl
  | cons block rest ih =>
      obtain ⟨condition, body⟩ := block
      rw [mapNotesBlocks, List.map_cons, List.map_cons, ih]
      rfl

theorem map_mapNotesBody (f : α → β) (statements : List (Statement α)) :
    mapNotesBody f statements = statements.map (Statement.mapNotes f) := by
  induction statements with
  | nil => rfl
  | cons statement rest ih => rw [mapNotesBody, ih, List.map_cons]

mutual

theorem walk_mapNotes (f : α → β) (statement : Statement α) :
    (statement.mapNotes f).walk = statement.walk.map (Statement.mapNotes f) := by
  match statement with
  | .sub note name body =>
      rw [Statement.mapNotes, Statement.walk, Statement.walk, List.map_cons, walkBody_mapNotes]
      rfl
  | .choice note blocks =>
      rw [Statement.mapNotes, Statement.walk, Statement.walk, List.map_cons, walkBlocks_mapNotes]
      rfl
  | .group note group => rfl
  | .call note name => rfl
  | .unimplemented note => rfl
  | .doc note name => rfl
  | .field note field => rfl

/-- What stands inside statements with other notes are the statements inside them, with other notes. -/
theorem walkBody_mapNotes (f : α → β) (statements : List (Statement α)) :
    Statement.walkBody (mapNotesBody f statements) = (Statement.walkBody statements).map (Statement.mapNotes f) := by
  match statements with
  | [] => rfl
  | statement :: rest =>
      rw [mapNotesBody, Statement.walkBody, Statement.walkBody, List.map_append, walk_mapNotes, walkBody_mapNotes]

theorem walkBlocks_mapNotes (f : α → β) (blocks : List (Block α)) :
    Statement.walkBlocks (mapNotesBlocks f blocks) = (Statement.walkBlocks blocks).map (Statement.mapNotes f) := by
  match blocks with
  | [] => rfl
  | .mk condition body :: rest =>
      rw [mapNotesBlocks, Statement.walkBlocks, Statement.walkBlocks, List.map_append, walkBody_mapNotes,
        walkBlocks_mapNotes]

end

theorem declaredGroups_mapNotes (f : α → β) (statements : List (Statement α)) :
    (mapNotesBody f statements).filterMap declaredGroup? = statements.filterMap declaredGroup? := by
  have same (statement : Statement α) : declaredGroup? (statement.mapNotes f) = declaredGroup? statement := by
    cases statement <;> rfl
  rw [map_mapNotesBody, List.filterMap_map]
  exact congrArg (statements.filterMap ·) (funext same)

theorem declaredSubs_mapNotes (f : α → β) (statements : List (Statement α)) :
    (mapNotesBody f statements).filterMap declaredSub? = statements.filterMap declaredSub? := by
  have same (statement : Statement α) : declaredSub? (statement.mapNotes f) = declaredSub? statement := by
    cases statement <;> rfl
  rw [map_mapNotesBody, List.filterMap_map]
  exact congrArg (statements.filterMap ·) (funext same)

/-! ## No notes -/

mutual

theorem erase_eq_mapNotes (statement : Statement α) : statement.erase = statement.mapNotes fun _ => () := by
  match statement with
  | .sub note name body => rw [Statement.erase, Statement.mapNotes, eraseBody_eq_mapNotes]
  | .choice note blocks => rw [Statement.erase, Statement.mapNotes, eraseBlocks_eq_mapNotes]
  | .group note group => rfl
  | .call note name => rfl
  | .unimplemented note => rfl
  | .doc note name => rfl
  | .field note field => rfl

theorem eraseBody_eq_mapNotes (statements : List (Statement α)) :
    eraseBody statements = mapNotesBody (fun _ => ()) statements := by
  match statements with
  | [] => rfl
  | statement :: rest => rw [eraseBody, mapNotesBody, erase_eq_mapNotes, eraseBody_eq_mapNotes]

theorem eraseBlocks_eq_mapNotes (blocks : List (Block α)) :
    eraseBlocks blocks = mapNotesBlocks (fun _ => ()) blocks := by
  match blocks with
  | [] => rfl
  | .mk condition body :: rest =>
      rw [eraseBlocks, mapNotesBlocks, eraseBody_eq_mapNotes, eraseBlocks_eq_mapNotes]

end

theorem map_condition_eraseBlocks (blocks : List (Block α)) :
    (eraseBlocks blocks).map Block.condition = blocks.map Block.condition := by
  rw [eraseBlocks_eq_mapNotes, map_condition_mapNotesBlocks]

theorem map_eraseBody (statements : List (Statement α)) : eraseBody statements = statements.map Statement.erase := by
  rw [eraseBody_eq_mapNotes, map_mapNotesBody, funext erase_eq_mapNotes]

theorem walkBody_erase (statements : List (Statement α)) :
    Statement.walkBody (eraseBody statements) = (Statement.walkBody statements).map Statement.erase := by
  rw [eraseBody_eq_mapNotes, walkBody_mapNotes, funext erase_eq_mapNotes]

theorem declaredGroups_erase (statements : List (Statement α)) :
    (eraseBody statements).filterMap declaredGroup? = statements.filterMap declaredGroup? := by
  rw [eraseBody_eq_mapNotes, declaredGroups_mapNotes]

theorem declaredSubs_erase (statements : List (Statement α)) :
    (eraseBody statements).filterMap declaredSub? = statements.filterMap declaredSub? := by
  rw [eraseBody_eq_mapNotes, declaredSubs_mapNotes]

end MissionGraph.Script
