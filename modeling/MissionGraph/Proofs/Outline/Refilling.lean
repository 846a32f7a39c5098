import MissionGraph.Proofs.Outline.Fields
import MissionGraph.Proofs.Record.Plain

/-!
# Nodes filled again from what was written

If the entries of a record give values of one kind only, its fields are written in an order in which an empty node
takes all of them. Whether a child may be written right behind the node is decided by what the loaded node still takes,
however, and not by what the filled one does. The two differ for lists that are set but empty: they count as values of
the loaded node, but they are not written.
-/

namespace MissionGraph

open Mission (Data DataKind Factions Field)
open Outline (Plan groupName)
open Script (Pos)

/-! ## Records with values of one kind -/

/-- The kind of the values that an entry of a data record gives, by its name in small letters. The mark of a missing
mission and the groups are of no kind. -/
def entryKind? : String → Option DataKind
  | "weight" => some .weight
  | "allowable_zone_types" => some .zones
  | "offer_text" => some .offer
  | "reward_text" => some .objective
  | "failure_text" => some .objective
  | "objective_text" => some .objective
  | "difficulty" => some .difficulty
  | "comm_sequence" => some .comm
  | _ => none

namespace Record

/-- All entries of the record that give values give values of the same kind. -/
def OneKind (record : Record) : Prop :=
  ∀ first ∈ record.entries, ∀ second ∈ record.entries, ∀ kind ∈ entryKind? first.name.toLower,
    ∀ other ∈ entryKind? second.name.toLower, kind = other

instance (record : Record) : Decidable record.OneKind :=
  inferInstanceAs (Decidable (∀ first ∈ record.entries, ∀ second ∈ record.entries,
    ∀ kind ∈ entryKind? first.name.toLower, ∀ other ∈ entryKind? second.name.toLower, kind = other))

variable {id : NodeId} {data changed : Data} {entry : Entry} {entries : List Entry} {kind : DataKind}

theorem has_of_dataChange {name : String} {values rest : List Value} {change : Data → Data}
    (read : (ValueReader.dataChange name).run values = .ok (change, rest)) (holds : (change data).has kind = true) :
    data.has kind = true ∨ entryKind? name = some kind := by
  unfold ValueReader.dataChange at read
  split at read
  all_goals try cases read
  all_goals
    obtain ⟨value, later, _, made⟩ := ValueReader.of_run_bind_ok read
    cases made
    cases kind <;> simp_all [Data.has, entryKind?]

theorem has_of_readEntry (read : readEntry id data entry = .ok changed) (holds : changed.has kind = true) :
    data.has kind = true ∨ entryKind? entry.name.toLower = some kind := by
  obtain ⟨change, isRead, rfl⟩ := Success.map_eq_ok_iff.mp (of_inEntry_eq_ok read)
  exact has_of_dataChange (of_readAll_eq_ok isRead) holds

theorem has_of_foldlM (read : entries.foldlM (readEntry id) data = .ok changed) (holds : changed.has kind = true) :
    data.has kind = true ∨ ∃ entry ∈ entries, entryKind? entry.name.toLower = some kind := by
  induction entries generalizing data with
  | nil =>
      cases read
      exact .inl holds
  | cons entry others ih =>
      rw [List.foldlM_cons] at read
      obtain ⟨next, isRead, continued⟩ := Success.bind_eq_ok_iff.mp read
      rcases ih continued with before | ⟨later, member, isKind⟩
      · rcases has_of_readEntry isRead before with before | isKind
        · exact .inl before
        · exact .inr ⟨entry, List.mem_cons_self, isKind⟩
      · exact .inr ⟨later, List.mem_cons_of_mem _ member, isKind⟩

/-- Values of a loaded node stand in an entry of its record. -/
theorem exists_entry_of_node {record : Record} {children : List NodeId}
    (loads : record.node = .ok ⟨.data data, children⟩) (holds : data.has kind = true) :
    ∃ entry ∈ record.entries, entryKind? entry.name.toLower = some kind := by
  obtain ⟨_, ⟨_, ⟨⟩, read⟩ | ⟨_, ⟨⟩, _⟩ | ⟨_, ⟨⟩, _⟩⟩ := of_node_eq_ok loads
  rcases has_of_foldlM read holds with before | found
  · cases kind <;> cases before
  · exact found

theorem OneKind.uniform {record : Record} {children : List NodeId} (oneKind : record.OneKind)
    (loads : record.node = .ok ⟨.data data, children⟩) : data.Uniform := by
  intro kind holds
  refine Data.kind_eq_of_only holds fun other holdsOther => ?_
  obtain ⟨first, member, isKind⟩ := exists_entry_of_node loads holds
  obtain ⟨second, memberOther, isOther⟩ := exists_entry_of_node loads holdsOther
  exact oneKind second memberOther first member other isOther kind isKind

end Record

/-! ## Filling an empty node -/

namespace Mission.Data

/-- What the written fields fill an empty node with, if its groups are known by the given factions. -/
def refilled (data : Data) (known : Factions → Factions) : Data :=
  { data with
    implemented := true
    zones := data.zones.filter (!·.isEmpty)
    offerGroup := (data.offerGroup.filter (!·.isEmpty)).map known
    hostileGroup := (data.hostileGroup.filter (!·.isEmpty)).map known }

variable {data : Data} {kind : DataKind} {known : Factions → Factions}

theorem has_of_refilled (holds : (data.refilled known).has kind = true) : data.has kind = true := by
  cases kind with
  | zones =>
      obtain ⟨names, isFilled⟩ := Option.isSome_iff_exists.mp holds
      exact Option.isSome_iff_exists.mpr ⟨names, (Option.filter_eq_some_iff.mp isFilled).1⟩
  | _ => exact holds

theorem Uniform.refilled (uniform : data.Uniform) (known : Factions → Factions) : (data.refilled known).Uniform := by
  intro kind holds
  refine kind_eq_of_only holds fun other holdsOther => ?_
  exact (uniform other (has_of_refilled holdsOther)).symm.trans (uniform kind (has_of_refilled holds))

end Mission.Data

section Takes

variable {data : Data} {groups : List (String × Factions)} {name : Factions → String}

theorem isEmpty_of_mem_filter {α : Type} {isEmpty : α → Bool} {value : Option α} {held : α}
    (kept : held ∈ value.filter (!isEmpty ·)) : isEmpty held = false := by
  simpa using (Option.filter_eq_some_iff.mp kept).2

theorem fieldsBefore_refilled (known : Factions → Factions) :
    fieldsBefore (data.refilled known) = fieldsBefore data := by
  have kept : (data.zones.filter (!·.isEmpty)).filter (!·.isEmpty) = data.zones.filter (!·.isEmpty) :=
    filter_eq_self fun names member => isEmpty_of_mem_filter member
  simp only [fieldsBefore, Data.refilled, kept]
  rfl

/-- The factions that the name of a group is declared for. -/
def declaredFactions (groups : List (String × Factions)) (name : Factions → String) (set : Factions) : Factions :=
  (groups.lookup (name set)).getD ⟨[]⟩

theorem factionsFor?_of_declared (make : String → Field) (isGroup : ∀ name, (make name).groupName? = some name)
    {value : Option Factions} {held : Factions} (isHeld : value = some held)
    (declared : ∀ field ∈ value.toList.map fun set => make (name set),
      (Builder.factionsFor? groups field).isSome = true) :
    Builder.factionsFor? groups (make (name held)) = some (declaredFactions groups name held) := by
  have isDeclared := declared (make (name held)) (List.mem_map_of_mem (Option.mem_toList.mpr isHeld))
  obtain ⟨factions, found⟩ := Option.isSome_iff_exists.mp isDeclared
  rw [Builder.factionsFor?, isGroup] at found ⊢
  dsimp only at found ⊢
  rw [declaredFactions, found, Option.getD_some]

/-- Groups whose names are declared are taken with the factions that the names are declared for. -/
theorem takes_declaredGroups (start : Data) (fits : (start.kind false).acceptsGroups = true)
    (declared : ∀ field ∈ groupFields name data false, (Builder.factionsFor? groups field).isSome = true) :
    Takes groups { start with offerGroup := none, hostileGroup := none } (groupFields name data false)
      { start with
        offerGroup := (data.offerGroup.filter (!·.isEmpty)).map (declaredFactions groups name)
        hostileGroup := (data.hostileGroup.filter (!·.isEmpty)).map (declaredFactions groups name) } := by
  obtain ⟨declaredOffer, declaredHostile⟩ := List.forall_mem_append.mp declared
  have offering : Takes groups { start with offerGroup := none, hostileGroup := none }
      ((data.offerGroup.filter (!·.isEmpty)).toList.map fun set => .offerGroup (name set))
      { start with
        offerGroup := (data.offerGroup.filter (!·.isEmpty)).map (declaredFactions groups name)
        hostileGroup := none } := by
    refine .optional (declaredFactions groups name) (fun unset => by rw [unset]; rfl) fun held isHeld => ?_
    have known := factionsFor?_of_declared .offerGroup (fun _ => rfl) isHeld declaredOffer
    exact ⟨Bool.and_eq_true_iff.mpr ⟨fits, rfl⟩, known, by rw [isHeld]; rfl⟩
  refine offering.append (.optional (declaredFactions groups name) (fun unset => by rw [unset]; rfl)
    fun held isHeld => ?_)
  have known := factionsFor?_of_declared .hostileGroup (fun _ => rfl) isHeld declaredHostile
  exact ⟨Bool.and_eq_true_iff.mpr ⟨fits, rfl⟩, known, by rw [isHeld]; rfl⟩

/-- An empty node takes the fields of uniform data one after the other. -/
theorem takes_refilled (plan : Plan) (uniform : data.Uniform)
    (declared : ∀ field ∈ plan.fields data false, (Builder.factionsFor? groups field).isSome = true) :
    Takes groups .empty (plan.fields data false)
      (data.refilled (declaredFactions groups (groupName plan.groups))) := by
  rw [fields_eq] at declared ⊢
  obtain ⟨_, declaredGroups⟩ := List.forall_mem_append.mp (List.forall_mem_append.mp declared).1
  have refilled := uniform.refilled (declaredFactions groups (groupName plan.groups))
  have before := @takes_fieldsBefore _ groups refilled (fun names member => isEmpty_of_mem_filter member) none
  rw [fieldsBefore_refilled] at before
  have fits := acceptsGroups_kind data.weight (data.zones.filter (!·.isEmpty)) data.offers
  have grouped := takes_declaredGroups _ fits declaredGroups
  exact (before.append grouped).append (takes_fieldsAfter refilled)

end Takes

namespace Graph

variable {graph : Graph} {id : NodeId} {data : Data} {children : List NodeId}

theorem modifyData_const (found : graph.get? id = some ⟨.data data, children⟩) :
    graph.modifyData id (fun _ => data) = graph := by
  apply ext_get?
  · intro key
    by_cases same : id = key
    · subst same
      rw [get?_modifyData_self found, found]
    · rw [get?_modifyData_of_ne same]
  · exact nextId_modifyData ..

theorem modifyData_modifyData (found : graph.get? id = some ⟨.data data, children⟩) (first second : Data → Data) :
    (graph.modifyData id first).modifyData id second = graph.modifyData id fun data => second (first data) := by
  apply ext_get?
  · intro key
    by_cases same : id = key
    · subst same
      rw [get?_modifyData_self (get?_modifyData_self found first), get?_modifyData_self found]
    · rw [get?_modifyData_of_ne same, get?_modifyData_of_ne same, get?_modifyData_of_ne same]
  · simp only [nextId_modifyData]

end Graph

namespace Builder

variable {before : Builder} {cursor : NodeId} {data full : Data} {field : Field} {fields : List Field}
  {factions : Factions}

/-- A field that the node under the cursor takes goes there. -/
theorem runs_addField_of_accepts (found : before.graph.get? cursor = some ⟨.data data, []⟩)
    (taken : data.accepts (data.kind false) field = true) (known : factionsFor? before.groups field = some factions)
    (pos : Pos) :
    Runs (addField pos cursor field) before cursor (before.onGraph (·.modifyData cursor (·.put factions field))) := by
  have takesField : takes before.graph cursor field = true := by
    rw [takes_of_get? found]
    exact taken
  rw [addField_eq, runs_bind_iff]
  refine ⟨before, before, runs_get_iff.mpr ⟨rfl, rfl⟩, ?_⟩
  rw [if_pos takesField]
  exact runs_fill_iff.mpr ⟨factions, known, rfl, rfl⟩

/-- Fields that can be taken one after the other all go into the node under the cursor, and nothing else changes. -/
theorem runs_addSequence_of_takes (takes : Takes before.groups data fields full)
    (found : before.graph.get? cursor = some ⟨.data data, []⟩) (pos : Pos) :
    Runs (addSequence cursor (fields.map (.field pos))) before cursor
      (before.onGraph (·.modifyData cursor fun _ => full)) := by
  generalize isGroups : before.groups = groups at takes
  induction takes generalizing before with
  | nil =>
      refine runs_pure_iff.mpr ⟨rfl, ?_⟩
      rw [onGraph, Graph.modifyData_const found]
  | @cons data last field fields factions taken known _ ih =>
      subst isGroups
      refine runs_bind_iff.mpr ⟨cursor, _, runs_addField_of_accepts found taken known pos, ?_⟩
      have later := @ih (before.onGraph (·.modifyData cursor (·.put factions field)))
        (Graph.get?_modifyData_self found _) rfl
      rw [onGraph, onGraph, Graph.modifyData_modifyData found] at later
      exact later

end Builder

/-! ## What the filled node takes -/

namespace Mission.Data

variable {data : Data} {known : Factions → Factions}

/-- No list that counts for what the data takes is set but empty. -/
structure Filled (data : Data) : Prop where
  zones : data.zones ≠ some []
  groups : (data.kind false).acceptsGroups = true → data.offerGroup ≠ some ⟨[]⟩ ∧ data.hostileGroup ≠ some ⟨[]⟩

theorem isSome_filter_isEmpty {value : Option (List String)} (filled : value ≠ some []) :
    (value.filter (!·.isEmpty)).isSome = value.isSome := by
  rcases value with _ | _ | _ <;> simp_all

theorem acceptsGroup_eq_iff (fits : Bool) (value : Option Factions) :
    (fits && ((value.filter (!·.isEmpty)).map known).isNone) = (fits && value.isNone) ↔
      (fits = true → value ≠ some ⟨[]⟩) := by
  cases fits with
  | false => simp
  | true => rcases value with _ | ⟨_ | _⟩ <;> simp [Factions.isEmpty]

theorem kind_refilled (filled : data.zones ≠ some []) : (data.refilled known).kind false = data.kind false := by
  simp only [kind, refilled, isSome_filter_isEmpty filled]
  rfl

/-- Data whose zones are set but empty is of the kind of zones; what is filled from it has no kind. -/
theorem kind_refilled_of_zones (uniform : data.Uniform) (isEmpty : data.zones = some []) :
    data.kind false = .zones ∧ data.weight = none ∧ (data.refilled known).kind false = .none := by
  have isZones : data.kind false = .zones := uniform .zones (by rw [has, isEmpty]; rfl)
  have unset := uniform.only_eq
  rw [isZones] at unset
  refine ⟨isZones, by rw [← unset]; rfl, ?_⟩
  rw [← unset]
  simp [kind, refilled, only, isEmpty]

/-- The filled node takes the same fields as the data exactly if no list that counts is set but empty. -/
theorem accepts_refilled_iff (uniform : data.Uniform) :
    (∀ field, (data.refilled known).accepts ((data.refilled known).kind false) field =
        data.accepts (data.kind false) field) ↔ data.Filled := by
  constructor
  · intro same
    have zones : data.zones ≠ some [] := by
      intro isEmpty
      obtain ⟨isZones, noWeight, noKind⟩ := @kind_refilled_of_zones _ known uniform isEmpty
      have weights := same (.weight 0)
      rw [isZones, noKind] at weights
      simp [accepts, refilled, noWeight] at weights
    rw [kind_refilled zones] at same
    have offers := (acceptsGroup_eq_iff _ _).mp (same (.offerGroup ""))
    have hostiles := (acceptsGroup_eq_iff _ _).mp (same (.hostileGroup ""))
    exact ⟨zones, fun fits => ⟨offers fits, hostiles fits⟩⟩
  · intro filled field
    rw [kind_refilled filled.zones]
    cases field with
    | offerGroup name => exact (acceptsGroup_eq_iff _ _).mpr fun fits => (filled.groups fits).1
    | hostileGroup name => exact (acceptsGroup_eq_iff _ _).mpr fun fits => (filled.groups fits).2
    | _ => rfl

end Mission.Data

/-- For a record with values of one kind, an empty node takes all fields that are written for it, one after the other
and whatever factions its groups are declared for. The node then takes the same further fields as the loaded one
exactly if the record has not set an empty list of zones, nor an empty group where groups are taken. -/
theorem accepts_eq_iff_filled {record : Record} {data : Data} {children : List NodeId}
    (loads : record.node = .ok ⟨.data data, children⟩) (oneKind : record.OneKind) (plan : Plan) {before : Builder}
    {cursor : NodeId} (found : before.graph.get? cursor = some ⟨.data .empty, []⟩)
    (declared : ∀ field ∈ plan.fields data false, (Builder.factionsFor? before.groups field).isSome = true)
    (pos : Pos) :
    ∃ full, Builder.Runs (Builder.addSequence cursor ((plan.fields data false).map (.field pos))) before cursor
        (before.onGraph (·.modifyData cursor fun _ => full)) ∧
      ((∀ field, full.accepts (full.kind false) field = data.accepts (data.kind false) field) ↔ data.Filled) := by
  have uniform := oneKind.uniform loads
  have takes := takes_refilled plan uniform declared
  exact ⟨_, Builder.runs_addSequence_of_takes takes found pos, Data.accepts_refilled_iff uniform⟩

/-- A plan with one group. -/
def onePlan : Plan := ⟨.empty, ∅, [], [⟨"g", ["a"]⟩]⟩

/-- A builder with an empty entry, in whose scope the name of that group stands for other factions. -/
def oneGroup : Builder := { Builder.start with groups := [("g", ⟨["b", "a"]⟩)] }

/-- A record with two texts, an empty group and another one. -/
def rewardRecord : Record where
  kind := .data
  id := 2
  entries := [⟨"hostile_group", []⟩, ⟨"reward_text", [.int 1]⟩, ⟨"failure_text", [.int 2, .name "b"]⟩,
    ⟨"offer_group", [.name "a"]⟩]
  children := []

/-- The data of that record. -/
def rewardData : Data :=
  { Data.empty with
    hostileGroup := some ⟨[]⟩
    offerGroup := some ⟨["a"]⟩
    reward := some ⟨1, []⟩
    failure := some ⟨2, ["b"]⟩ }

/-- The empty group does not count, since nodes with texts take no groups. -/
theorem accepts_eq_rewardRecord :
    rewardRecord.node = .ok ⟨.data rewardData, []⟩ ∧ rewardRecord.OneKind ∧
      ∃ full, Builder.Runs (Builder.addSequence 2 ((onePlan.fields rewardData false).map (.field ⟨1, 1⟩))) oneGroup 2
          (oneGroup.onGraph (·.modifyData 2 fun _ => full)) ∧
        ∀ field, full.accepts (full.kind false) field = rewardData.accepts (rewardData.kind false) field := by
  have loads : rewardRecord.node = .ok ⟨.data rewardData, []⟩ := by decide +kernel
  have oneKind : rewardRecord.OneKind := by decide +kernel
  have filled : rewardData.Filled := ⟨by decide, fun fits => by cases fits⟩
  have declared : ∀ field ∈ onePlan.fields rewardData false,
      (Builder.factionsFor? oneGroup.groups field).isSome = true := by decide
  have found : oneGroup.graph.get? 2 = some ⟨.data .empty, []⟩ := rfl
  obtain ⟨full, runs, accepts⟩ := accepts_eq_iff_filled loads oneKind onePlan found declared ⟨1, 1⟩
  exact ⟨loads, oneKind, full, runs, accepts.mpr filled⟩

/-- A record that sets a group and an empty list of zones. -/
def zonesRecord : Record where
  kind := .data
  id := 2
  entries := [⟨"offer_group", [.name "a"]⟩, ⟨"allowable_zone_types", []⟩]
  children := []

/-- The loaded node takes no weight, but the node that is filled with its fields does. -/
theorem not_accepts_eq :
    zonesRecord.OneKind ∧
      ∃ data full, zonesRecord.node = .ok ⟨.data data, []⟩ ∧
        Builder.Runs (Builder.addSequence 2 ((onePlan.fields data false).map (.field ⟨1, 1⟩))) oneGroup 2
          (oneGroup.onGraph (·.modifyData 2 fun _ => full)) ∧
        data.accepts (data.kind false) (.weight 3) = false ∧ full.accepts (full.kind false) (.weight 3) = true := by
  have oneKind : zonesRecord.OneKind := by decide +kernel
  refine ⟨oneKind, { Data.offeredBy ⟨["a"]⟩ with zones := some [] }, .offeredBy ⟨["b", "a"]⟩, by decide +kernel, ?_,
    rfl, rfl⟩
  exact Builder.runs_addSequence_of_takes (.cons rfl rfl .nil) rfl ⟨1, 1⟩

end MissionGraph
