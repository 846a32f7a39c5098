import MissionGraph.Proofs.Ini.Sections

/-!
# Records of well-formed nodes

All entries in the records of a graph can be written on lines if the contents of its nodes are well formed.
-/

namespace MissionGraph

open Mission (Comm Data Difficulty Factions Message Objective Offer OfferItem)
open Number (Single)
open Script (isName)
open Text (Plain)

/-- The name of an entry can be written down and is not that of the number of a node. -/
structure EntryName (name : String) : Prop where
  plain : Plain name.toList
  notId : Text.sameLetters name "node_id" = false
  notChild : Text.sameLetters name "child_node" = false

instance (name : String) : Decidable (EntryName name) :=
  decidable_of_iff (Plain name.toList ∧ Text.sameLetters name "node_id" = false ∧
      Text.sameLetters name "child_node" = false)
    ⟨fun ⟨plain, notId, notChild⟩ => ⟨plain, notId, notChild⟩,
      fun named => ⟨named.plain, named.notId, named.notChild⟩⟩

theorem EntryName.lined {name : String} (named : EntryName name) {values : List Value}
    (written : ∀ value ∈ values, value.Written) : Entry.Lined ⟨name, values⟩ where
  label := Ini.label_of_plain named.plain
  notId := named.notId
  notChild := named.notChild
  pieces := fun value listed => Ini.piece_of_plain (Ini.plain_text (written value listed))

namespace Record

theorem written_nameValues {names : List String} (named : ∀ name ∈ names, isName name = true) :
    ∀ value ∈ nameValues names, value.Written := by
  intro value member
  obtain ⟨name, listed, rfl⟩ := List.mem_map.mp member
  exact named name listed

theorem written_messageValues {message : Message} (formed : message.wellFormed = true) :
    ∀ value ∈ messageValues message, value.Written := by
  simp only [Message.wellFormed, Bool.and_eq_true, List.all_eq_true] at formed
  exact List.forall_mem_cons.mpr ⟨trivial, written_nameValues formed.2⟩

theorem written_objectiveValues {objective : Objective} (formed : objective.wellFormed = true) :
    ∀ value ∈ objectiveValues objective, value.Written := by
  simp only [Objective.wellFormed, Bool.and_eq_true] at formed
  exact List.forall_mem_cons.mpr ⟨formed.1, written_messageValues formed.2⟩

theorem written_itemValues {item : OfferItem} (formed : item.wellFormed = true) :
    ∀ value ∈ itemValues item, value.Written := by
  obtain ⟨plurality, message⟩ := item
  simp only [OfferItem.wellFormed, Bool.and_eq_true] at formed
  refine List.forall_mem_append.mpr ⟨written_nameValues ?_, written_messageValues formed.1⟩
  cases plurality with
  | none => exact fun _ member => absurd member List.not_mem_nil
  | singular => exact List.forall_mem_singleton.mpr (by decide)
  | plural => exact List.forall_mem_singleton.mpr (by decide)

theorem written_offerValues {offer : Offer} (formed : offer.wellFormed = true) :
    ∀ value ∈ offerValues offer, value.Written := by
  obtain ⟨mode, items⟩ := offer
  simp only [Offer.wellFormed, Bool.and_eq_true, List.all_eq_true] at formed
  refine List.forall_mem_cons.mpr ⟨?_, fun value member => ?_⟩
  · exact (ValueReader.OfferMode.ofWord?_word mode).1
  · obtain ⟨item, listed, inItem⟩ := List.mem_flatMap.mp member
    exact written_itemValues (formed.2 item listed) value inItem

theorem written_commValues {comm : Comm} (formed : comm.wellFormed = true) :
    ∀ value ∈ commValues comm, value.Written := by
  simp only [Comm.wellFormed, Comm.numbers, Bool.and_eq_true, List.all_cons, List.all_nil] at formed
  obtain ⟨⟨isEvent, first, second, third, _⟩, isSaid⟩ := formed
  have party (one : Mission.Party) := (ValueReader.Party.ofWord?_word one).1
  simp only [commValues, List.forall_mem_cons]
  exact ⟨isEvent, party _, first, second, third, party _, isSaid, fun _ member => absurd member List.not_mem_nil⟩

theorem written_difficultyValues {difficulty : Difficulty} (formed : difficulty.wellFormed = true) :
    ∀ value ∈ difficultyValues difficulty, value.Written := by
  simp only [Difficulty.wellFormed, Difficulty.numbers, Bool.and_eq_true, List.all_cons, List.all_nil] at formed
  simp only [difficultyValues, List.forall_mem_cons]
  exact ⟨formed.1, formed.2.1, fun _ member => absurd member List.not_mem_nil⟩

theorem lined_optionalEntry {α : Type} {name : String} (named : EntryName name) {values : α → List Value}
    {value : Option α} (written : ∀ inner ∈ value, ∀ one ∈ values inner, one.Written) :
    ∀ entry ∈ optionalEntry name values value, entry.Lined := by
  cases value with
  | none => exact fun _ member => absurd member List.not_mem_nil
  | some inner => exact List.forall_mem_singleton.mpr (named.lined (written inner rfl))

theorem lined_namesEntry {name : String} (named : EntryName name) {names : List String}
    (areNames : ∀ text ∈ names, isName text = true) : ∀ entry ∈ namesEntry name names, entry.Lined := by
  unfold namesEntry
  split
  · exact fun _ member => absurd member List.not_mem_nil
  · exact List.forall_mem_singleton.mpr (named.lined (written_nameValues areNames))

theorem lined_entries {α : Type} {name : String} (named : EntryName name) {values : α → List Value}
    {list : List α} (written : ∀ inner ∈ list, ∀ one ∈ values inner, one.Written) :
    ∀ entry ∈ list.map (fun inner => Entry.mk name (values inner)), entry.Lined := by
  intro entry member
  obtain ⟨inner, listed, rfl⟩ := List.mem_map.mp member
  exact named.lined (written inner listed)

/-- The entries of well-formed data can be written on lines. -/
theorem lined_dataEntries {data : Data} (formed : data.WellFormed) :
    ∀ entry ∈ dataEntries data, entry.Lined := by
  have factionNames (group : Option Factions) (groupFormed : ∀ factions ∈ group, Mission.NameList factions.names) :
      ∀ text ∈ (group.map (·.names)).getD [], isName text = true := by
    cases group with
    | none => exact fun _ member => absurd member List.not_mem_nil
    | some factions => exact (groupFormed factions rfl).2
  have zoneNames : ∀ text ∈ data.zones.getD [], isName text = true := by
    cases isSet : data.zones with
    | none => exact fun _ member => absurd member List.not_mem_nil
    | some names => exact (formed.zones names isSet).2
  unfold dataEntries
  simp only [List.forall_mem_append]
  refine ⟨⟨⟨⟨⟨⟨⟨⟨⟨⟨?_, ?_⟩, ?_⟩, ?_⟩, ?_⟩, ?_⟩, ?_⟩, ?_⟩, ?_⟩, ?_⟩, ?_⟩
  · exact lined_optionalEntry (by decide +kernel) fun weight _ => List.forall_mem_singleton.mpr trivial
  · split
    · exact fun _ member => absurd member List.not_mem_nil
    · exact List.forall_mem_singleton.mpr
        (EntryName.lined (by decide +kernel) (List.forall_mem_singleton.mpr trivial))
  · exact lined_namesEntry (by decide +kernel)
      (factionNames _ formed.offerGroup)
  · exact lined_namesEntry (by decide +kernel)
      (factionNames _ formed.hostileGroup)
  · exact lined_namesEntry (by decide +kernel) zoneNames
  · exact lined_optionalEntry (by decide +kernel)
      fun value isSet => written_difficultyValues (formed.difficulty value isSet)
  · exact lined_optionalEntry (by decide +kernel)
      fun value isSet => written_messageValues (formed.failure value isSet)
  · exact lined_optionalEntry (by decide +kernel)
      fun value isSet => written_messageValues (formed.reward value isSet)
  · exact lined_entries (by decide +kernel)
      fun value listed => written_objectiveValues (formed.objectives value listed)
  · exact lined_entries (by decide +kernel)
      fun value listed => written_offerValues (formed.offers value listed)
  · exact lined_entries (by decide +kernel)
      fun value listed => written_commValues (formed.comms value listed)

/-- The entries of the record of a well-formed node can be written on lines. -/
theorem lined_of_ofNode? {id : NodeId} {node : Node} (formed : node.content.WellFormed) {record : Record}
    (isRecord : ofNode? id node = some record) : ∀ entry ∈ record.entries, entry.Lined := by
  obtain ⟨content, children⟩ := node
  have single (name : String) (named : EntryName name) (text : String) (isText : isName text = true) :
      ∀ entry ∈ [Entry.mk name [.name text]], entry.Lined :=
    List.forall_mem_singleton.mpr (named.lined (List.forall_mem_singleton.mpr isText))
  cases content with
  | data data =>
      cases isRecord
      exact lined_dataEntries formed
  | decision nickname =>
      cases isRecord
      exact single _ (by decide +kernel) nickname formed
  | documentation text =>
      cases isRecord
      exact single _ (by decide +kernel) text formed
  | choice conditions => cases isRecord

end Record

end MissionGraph
