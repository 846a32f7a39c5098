import MissionGraph.Proofs.Record.Loading
import MissionGraph.Session

/-!
# Graphs stored as records

Records hold all of a proper graph, except that groups and zones which list nothing come back unset. The
order of the records does not matter: storing one record and then another is the same as storing them the
other way round, so all orders lead to the same graph or all of them fail.
-/

namespace MissionGraph

open Mission (Data Offer)

instance (offer : Offer) : Decidable offer.Separable :=
  inferInstanceAs (Decidable (_ ∧ ∀ item ∈ offer.items, ∀ arg ∈ item.message.args, _ ∧ _))

instance (content : Content) : Decidable content.Storable :=
  match content with
  | .data values => inferInstanceAs (Decidable (∀ offer ∈ values.offers, offer.Separable))
  | .decision _ => .isTrue trivial
  | .documentation _ => .isTrue trivial
  | .choice _ => .isFalse id

namespace Graph

/-- The records of a proper graph without joined chains of decisions are loaded as the nodes of that graph
under the same numbers and with the same children, if the items of its offers can be told apart. Only groups
and zones that list nothing are left out. -/
theorem load_records {graph : Graph} (proper : graph.Proper)
    (storable : ∀ id node, graph.get? id = some node → node.content.Storable) :
    ∃ loaded, ofRecords graph.records = .ok loaded ∧ ∀ id, loaded.get? id = (graph.get? id).map Node.settled := by
  obtain ⟨loaded, success, sameNodes⟩ := ofRecords_mapValues_settled .refl proper storable
    (fun _ _ _ _ _ => rfl) fun _ _ _ _ _ => rfl
  rw [mapValues_id, List.map_id] at success
  refine ⟨loaded, success, fun id => ?_⟩
  rw [sameNodes, Node.mapNames_id]
  rfl

/-- A graph with zones and a group that list nothing, names that no script could spell, and an offer whose
second item starts with a number. -/
def unsettled : Graph :=
  empty
    |>.insert 2 ⟨.data { Data.empty with
        hostileGroup := some ⟨[]⟩
        zones := some []
        offers := [⟨.replace, [⟨.plural, ⟨-1, ["two words", "true"]⟩⟩, ⟨.none, ⟨2, ["none"]⟩⟩]⟩] }, [7, 3]⟩
    |>.insert 7 ⟨.decision "Branch", [3, 3, 3]⟩
    |>.insert 3 ⟨.documentation "", []⟩

theorem load_records_unsettled : unsettled.get? 2 ≠ (unsettled.get? 2).map Node.settled ∧
    ∃ loaded, ofRecords unsettled.records = .ok loaded ∧
      ∀ id, loaded.get? id = (unsettled.get? id).map Node.settled := by
  refine ⟨by decide +kernel, load_records (by decide +kernel) ?_⟩
  rw [@forall_stored_iff unsettled fun _ node => node.content.Storable]
  decide +kernel

/-! ## The order of records -/

/-- Two records can be stored in either order. -/
theorem insertRecord_swap {graph loaded : Graph} {first second : Record}
    (success : (graph.insertRecord first >>= fun next => next.insertRecord second) = .ok loaded) :
    (graph.insertRecord second >>= fun next => next.insertRecord first) = .ok loaded := by
  obtain ⟨next, insertedFirst, insertedSecond⟩ := Success.bind_eq_ok_iff.mp success
  obtain ⟨unusedFirst, node, read, rfl⟩ := insertRecord_eq_ok_iff.mp insertedFirst
  obtain ⟨unusedSecond, other, readOther, rfl⟩ := insertRecord_eq_ok_iff.mp insertedSecond
  have different : first.id ≠ second.id := by
    intro same
    rw [same, get?_insert_self] at unusedSecond
    cases unusedSecond
  rw [get?_insert_of_ne different] at unusedSecond
  have inserted := insertRecord_eq_ok_iff.mpr ⟨unusedSecond, other, readOther, rfl⟩
  refine Success.bind_eq_ok_iff.mpr ⟨_, inserted, insertRecord_eq_ok_iff.mpr ⟨?_, node, read, ?_⟩⟩
  · rwa [get?_insert_of_ne (Ne.symm different)]
  · exact (insert_comm graph different node other).symm

/-- Records that are a graph are the same graph in every order. -/
theorem ofRecords_of_perm {records others : List Record} (permuted : records.Perm others) {loaded : Graph}
    (success : ofRecords records = .ok loaded) : ofRecords others = .ok loaded := by
  obtain ⟨stored, hasEntry, noneMissing, acyclic⟩ := ofRecords_eq_ok_iff.mp success
  refine ofRecords_eq_ok_iff.mpr ⟨?_, hasEntry, ?_, acyclic⟩
  · apply Success.foldlM_eq_ok_of_perm _ permuted stored
    intro graph first second result both
    exact insertRecord_swap both
  · rw [List.findSome?_eq_none_iff] at noneMissing ⊢
    intro record member
    exact noneMissing record (permuted.mem_iff.mpr member)

/-- The order of records does not matter: they are a graph in one order exactly if they are the same graph in
the other, with the same next number, and then the script and all walks are the same. -/
theorem order_of_records {records others : List Record} (permuted : records.Perm others) :
    (∀ loaded, ofRecords records = .ok loaded ↔ ofRecords others = .ok loaded) ∧
      ∀ loaded, ofRecords records = .ok loaded →
        (∀ width, Outline.decompile records width = Outline.decompile others width) ∧
          ∀ options params, Session.run ⟨records, options⟩ params = Session.run ⟨others, options⟩ params := by
  refine ⟨fun loaded => ⟨ofRecords_of_perm permuted, ofRecords_of_perm permuted.symm⟩, ?_⟩
  intro loaded success
  have same := success.trans (ofRecords_of_perm permuted success).symm
  constructor
  · intro width
    rw [Outline.decompile, Outline.decompile, same]
  · intro options params
    simp only [Session.run, same]

/-- Records in descending order of their numbers, with a node that has two parents. -/
def descending : List Record :=
  [⟨.documentation, 9, [⟨"documentation", [.name "last"]⟩], []⟩, ⟨.data, 4, [⟨"weight", [.int 3]⟩], [9]⟩,
    ⟨.decision, 2, [⟨"nickname", [.name "Pre_battle"]⟩], [4, 9]⟩]

theorem order_of_records_descending : ∃ loaded, ofRecords descending = .ok loaded ∧
    ofRecords descending.reverse = .ok loaded ∧
    (∀ width, Outline.decompile descending width = Outline.decompile descending.reverse width) ∧
    ∀ options params,
      Session.run ⟨descending, options⟩ params = Session.run ⟨descending.reverse, options⟩ params := by
  obtain ⟨sameGraph, sameUse⟩ := order_of_records (List.reverse_perm descending).symm
  refine Exists.imp (fun loaded loads => ⟨loads, (sameGraph loaded).mp loads, sameUse loaded loads⟩)
    (Success.exists_of_isSome ?_)
  decide +kernel

end Graph

end MissionGraph
