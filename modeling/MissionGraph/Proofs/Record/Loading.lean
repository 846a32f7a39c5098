import MissionGraph.Proofs.Record.Decoding

/-!
# Loaded graphs

A graph that has been read from records holds the node of every record and nothing else. It is proper, since
reading checks for the entry, for the children and for cycles.
-/

namespace MissionGraph

namespace Record

/-- A record is read as a node with the children of the record, and never as a joined chain of decisions. -/
theorem of_node_eq_ok {record : Record} {node : Node} (read : record.node = .ok node) :
    node.children = record.children ∧
      ((∃ data, node.content = .data data ∧ readData record.id record.entries = .ok data) ∨
        (∃ nickname, node.content = .decision nickname ∧
          readSingle record.id "nickname" record.entries = .ok nickname) ∨
        ∃ text, node.content = .documentation text ∧
          readSingle record.id "documentation" record.entries = .ok text) := by
  obtain ⟨kind, id, entries, children⟩ := record
  cases kind with
  | data =>
      obtain ⟨content, isContent, made⟩ := Success.bind_eq_ok_iff.mp read
      obtain ⟨data, isData, rfl⟩ := Success.map_eq_ok_iff.mp isContent
      cases made
      exact ⟨rfl, .inl ⟨data, rfl, isData⟩⟩
  | decision =>
      obtain ⟨content, isContent, made⟩ := Success.bind_eq_ok_iff.mp read
      obtain ⟨nickname, isRead, rfl⟩ := Success.map_eq_ok_iff.mp isContent
      cases made
      exact ⟨rfl, .inr (.inl ⟨nickname, rfl, isRead⟩)⟩
  | documentation =>
      obtain ⟨content, isContent, made⟩ := Success.bind_eq_ok_iff.mp read
      obtain ⟨text, isRead, rfl⟩ := Success.map_eq_ok_iff.mp isContent
      cases made
      exact ⟨rfl, .inr (.inr ⟨text, rfl, isRead⟩)⟩

end Record

namespace Graph

variable {records : List Record} {graph loaded : Graph}

/-- A stored node was stored before, or it is the node of a record. -/
theorem exists_record_of_foldlM (success : records.foldlM insertRecord graph = .ok loaded) {id : NodeId}
    {node : Node} (found : loaded.get? id = some node) :
    graph.get? id = some node ∨ ∃ record ∈ records, record.id = id ∧ record.node = .ok node := by
  induction records generalizing graph with
  | nil =>
      cases success
      exact .inl found
  | cons first others ih =>
      rw [List.foldlM_cons] at success
      obtain ⟨next, inserted, continued⟩ := Success.bind_eq_ok_iff.mp success
      obtain ⟨_, read, isRead, rfl⟩ := insertRecord_eq_ok_iff.mp inserted
      rcases ih continued with before | ⟨record, member, same, isNode⟩
      · rw [get?_insert] at before
        split at before
        · rename_i same
          cases before
          exact .inr ⟨first, List.mem_cons_self, same, isRead⟩
        · exact .inl before
      · exact .inr ⟨record, List.mem_cons_of_mem _ member, same, isNode⟩

/-- Every node of a loaded graph is the node of a record. -/
theorem exists_record (success : ofRecords records = .ok loaded) {id : NodeId} {node : Node}
    (found : loaded.get? id = some node) : ∃ record ∈ records, record.id = id ∧ record.node = .ok node := by
  rcases exists_record_of_foldlM (ofRecords_eq_ok_iff.mp success).1 found with impossible | isRecord
  · rw [get?_empty] at impossible
    cases impossible
  · exact isRecord

/-- A loaded graph is proper. -/
theorem proper_of_ofRecords (success : ofRecords records = .ok loaded) : loaded.Proper := by
  obtain ⟨_, hasEntry, noneMissing, acyclic⟩ := ofRecords_eq_ok_iff.mp success
  refine ⟨contains_iff.mp hasEntry, ?_, findCycle?_eq_none_iff.mp acyclic⟩
  intro parent child edge
  obtain ⟨node, found, member⟩ := child_iff.mp edge
  obtain ⟨record, isRecord, _, read⟩ := exists_record success found
  have present := List.findSome?_eq_none_iff.mp noneMissing record isRecord
  rw [missingChild?, Option.map_eq_none_iff, List.find?_eq_none] at present
  rw [(Record.of_node_eq_ok read).1] at member
  exact contains_iff.mp (by simpa using present child member)

/-- A loaded graph holds no joined chains of decisions. -/
theorem plain_of_ofRecords (success : ofRecords records = .ok loaded) (id : NodeId)
    (conditions : List Script.Condition) (children : List NodeId) :
    loaded.get? id ≠ some ⟨.choice conditions, children⟩ := by
  intro found
  obtain ⟨record, _, _, read⟩ := exists_record success found
  obtain ⟨_, ⟨_, impossible, _⟩ | ⟨_, impossible, _⟩ | ⟨_, impossible, _⟩⟩ := Record.of_node_eq_ok read <;>
    cases impossible

end Graph

end MissionGraph
