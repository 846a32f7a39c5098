import MissionGraph.Outline.Basic
import MissionGraph.Proofs.Build.Shape

/-!
# The fields of a data node

Apart from groups, a data node of a script's graph holds values of one kind only. So if its fields are
written in the fixed order, each of them can still be taken by the node that holds those before it, and the
node is filled with the same data again.
-/

namespace MissionGraph

open Mission (Data DataKind Factions Field Message Objective Offer)
open Outline (Plan groupName)
open Script (Statement)

namespace Mission

/-- The kind of values that the field belongs to; groups belong to none. -/
def Field.kind? : Field → Option DataKind
  | .comm _ => some .comm
  | .failure _ => some .objective
  | .reward _ => some .objective
  | .objective _ => some .objective
  | .offers _ => some .offer
  | .difficulty _ => some .difficulty
  | .weight _ => some .weight
  | .zones _ => some .zones
  | .offerGroup _ => none
  | .hostileGroup _ => none

namespace Data

/-- The data holds values of the kind. -/
def has (data : Data) : DataKind → Bool
  | .objective => data.reward.isSome || data.failure.isSome || !data.objectives.isEmpty
  | .difficulty => data.difficulty.isSome
  | .weight => data.weight.isSome
  | .comm => !data.comms.isEmpty
  | .zones => data.zones.isSome
  | .offer => !data.offers.isEmpty
  | .none => false
  | .closed => false

/-- All values of the data but groups are of the same kind. -/
def Uniform (data : Data) : Prop :=
  ∀ kind, data.has kind = true → data.kind false = kind

variable {data : Data} {kind : DataKind} {field : Field} {factions : Factions}

theorem kind_eq_of_only (holds : data.has kind = true) (only : ∀ other, data.has other = true → other = kind) :
    data.kind false = kind := by
  rw [Data.kind, if_neg Bool.false_ne_true]
  split
  · exact only .objective ‹_›
  · split
    · exact only .difficulty ‹_›
    · split
      · exact only .weight ‹_›
      · split
        · exact only .comm ‹_›
        · split
          · exact only .zones ‹_›
          · split
            · exact only .offer ‹_›
            · cases kind <;> contradiction

theorem has_put (holds : (data.put factions field).has kind = true) :
    data.has kind = true ∨ field.kind? = some kind := by
  cases field <;> cases kind <;> simp_all [has, put, Field.kind?]

/-- Data that takes a field holds no values yet, or values of the same kind. -/
theorem kind_of_accepts (taken : data.accepts kind field = true) {own : DataKind} (isOwn : field.kind? = some own) :
    kind = .none ∨ kind = own := by
  cases field <;> cases isOwn <;> revert taken <;> cases kind <;> simp [accepts]

theorem accepts_closed (data : Data) (field : Field) : data.accepts .closed field = false := by
  cases field <;> rfl

theorem Uniform.put (uniform : data.Uniform) (taken : data.accepts (data.kind false) field = true) :
    (data.put factions field).Uniform := by
  intro kind holds
  have same {own other : DataKind} (holdsOwn : data.has own = true) (isOther : field.kind? = some other) :
      own = other := by
    have isKind := uniform own holdsOwn
    rcases kind_of_accepts taken isOther with isNone | isOwn
    · rw [isKind] at isNone
      subst isNone
      cases holdsOwn
    · exact isKind.symm.trans isOwn
  refine kind_eq_of_only holds fun other holdsOther => ?_
  rcases has_put holds with before | isField <;> rcases has_put holdsOther with beforeOther | isOther
  · exact (uniform other beforeOther).symm.trans (uniform kind before)
  · exact (same before isOther).symm
  · exact same beforeOther isField
  · exact Option.some.inj (isOther.symm.trans isField)

/-- The groups and the mark of the data, with its values of one kind. -/
def only (data : Data) (kind : DataKind) : Data where
  weight := if kind = .weight then data.weight else none
  implemented := data.implemented
  offerGroup := data.offerGroup
  hostileGroup := data.hostileGroup
  zones := if kind = .zones then data.zones else none
  difficulty := if kind = .difficulty then data.difficulty else none
  failure := if kind = .objective then data.failure else none
  reward := if kind = .objective then data.reward else none
  objectives := if kind = .objective then data.objectives else []
  offers := if kind = .offer then data.offers else []
  comms := if kind = .comm then data.comms else []

theorem Uniform.only_eq (uniform : data.Uniform) : data.only (data.kind false) = data := by
  have unset (other : DataKind) (different : data.kind false ≠ other) : data.has other = false :=
    eq_false_of_ne_true fun holds => different (uniform other holds)
  generalize data.kind false = kind at unset
  obtain ⟨weight, implemented, offer, hostile, zones, difficulty, failure, reward, objectives, offers, comms⟩ := data
  have noWeight := unset .weight
  have noZones := unset .zones
  have noDifficulty := unset .difficulty
  have noObjective := unset .objective
  have noOffers := unset .offer
  have noComms := unset .comm
  simp only [has, Bool.or_eq_false_iff, Option.isSome_eq_false_iff, Option.isNone_iff_eq_none, Bool.not_eq_false',
    List.isEmpty_iff] at noWeight noZones noDifficulty noObjective noOffers noComms
  cases kind <;> simp_all [only]

end Data

end Mission

/-- The data nodes of a script's graph hold values of one kind only. -/
theorem invariant_uniform {α : Type} (scope : Scope) (all : List (Statement α)) :
    Invariant scope all fun node => ∀ data, node.content = .data data → data.Uniform where
  empty := by
    rintro _ ⟨⟩ kind holds
    cases kind <;> cases holds
  offered := by
    rintro _ _ _ _ ⟨⟩ kind holds
    cases kind <;> cases holds
  documentation := fun _ _ _ _ isData => by cases isData
  decision := fun _ _ _ _ _ _ _ _ _ _ isData => by cases isData
  put := by
    rintro note field data children factions _ _ taken holds _ ⟨⟩
    cases children with
    | nil => exact (holds data rfl).put taken
    | cons child others =>
        have refused : data.accepts .closed field = false := data.accepts_closed field
        cases taken.symm.trans refused
  missing := by
    rintro data children holds _ ⟨⟩
    exact holds data rfl
  leading := fun _ _ _ holds => holds

/-! ## Taking fields one after the other -/

/-- Data takes the fields one after the other and becomes the last data. -/
inductive Takes (groups : List (String × Factions)) : Data → List Field → Data → Prop where
  | nil {data : Data} : Takes groups data [] data
  | cons {data last : Data} {field : Field} {fields : List Field} {factions : Factions}
      (taken : data.accepts (data.kind false) field = true)
      (known : Builder.factionsFor? groups field = some factions)
      (later : Takes groups (data.put factions field) fields last) : Takes groups data (field :: fields) last

namespace Takes

variable {groups : List (String × Factions)} {first second third data : Data}

theorem append {one two : List Field} (before : Takes groups first one second) (after : Takes groups second two third) :
    Takes groups first (one ++ two) third := by
  induction before with
  | nil => exact after
  | cons taken known _ ih => exact .cons taken known (ih after)

theorem eq_of_nil (takes : Takes groups first [] second) : first = second := by
  cases takes
  rfl

/-- A value that may be there is taken if it is. -/
theorem optional {α : Type} {value : Option α} {make : α → Field} (factions : α → Factions)
    (unset : value = none → first = second)
    (set : ∀ held, value = some held → first.accepts (first.kind false) (make held) = true ∧
      Builder.factionsFor? groups (make held) = some (factions held) ∧ first.put (factions held) (make held) = second) :
    Takes groups first (value.toList.map make) second := by
  cases value with
  | none => exact unset rfl ▸ .nil
  | some held =>
      obtain ⟨taken, known, rfl⟩ := set held rfl
      exact .cons taken known .nil

/-- Values of the same sort are taken one after the other. -/
theorem repeated {α : Type} {make : α → Field} (state : List α → Data)
    (taken : ∀ before value, (state before).accepts ((state before).kind false) (make value) = true)
    (ungrouped : ∀ value, (make value).groupName? = none)
    (puts : ∀ before value factions, (state before).put factions (make value) = state (before ++ [value]))
    (before values : List α) : Takes groups (state before) (values.map make) (state (before ++ values)) := by
  induction values generalizing before with
  | nil =>
      rw [List.append_nil]
      exact .nil
  | cons value rest ih =>
      have known : Builder.factionsFor? groups (make value) = some ⟨[]⟩ := by
        rw [Builder.factionsFor?, ungrouped]
      refine .cons (taken before value) known ?_
      rw [puts, List.append_cons before value rest]
      exact ih (before ++ [value])

end Takes

section Fields

variable {data : Data} {groups : List (String × Factions)} {name : Factions → String}

/-- The fields that are written before the groups. -/
def fieldsBefore (data : Data) : List Field :=
  data.weight.toList.map .weight ++ (data.zones.filter (!·.isEmpty)).toList.map .zones ++
    if data.offers.isEmpty then [] else [.offers data.offers]

/-- The fields that are written after the groups. -/
def fieldsAfter (data : Data) : List Field :=
  data.reward.toList.map .reward ++ data.failure.toList.map .failure ++ data.objectives.map .objective ++
    data.difficulty.toList.map .difficulty ++ data.comms.map .comm

/-- The fields for the groups. The group that offers the mission may be left out. -/
def groupFields (name : Factions → String) (data : Data) (inGroupBlock : Bool) : List Field :=
  (if inGroupBlock then [] else (data.offerGroup.filter (!·.isEmpty)).toList.map fun set => .offerGroup (name set)) ++
    (data.hostileGroup.filter (!·.isEmpty)).toList.map fun set => .hostileGroup (name set)

theorem fields_eq (plan : Plan) (data : Data) (inGroupBlock : Bool) :
    plan.fields data inGroupBlock =
      fieldsBefore data ++ groupFields (groupName plan.groups) data inGroupBlock ++ fieldsAfter data := by
  simp only [Plan.fields, fieldsBefore, groupFields, fieldsAfter, List.append_assoc]

theorem filter_eq_self {α : Type} {isEmpty : α → Bool} {value : Option α}
    (full : ∀ held ∈ value, isEmpty held = false) :
    value.filter (!isEmpty ·) = value := by
  cases value with
  | none => rfl
  | some held =>
      rw [Option.filter_some, full held rfl]
      rfl

theorem takes_fieldsBefore (uniform : data.Uniform) (zones : ∀ names ∈ data.zones, names.isEmpty = false)
    (offerGroup : Option Factions) :
    Takes groups { Data.empty with offerGroup } (fieldsBefore data)
      { Data.empty with offerGroup, weight := data.weight, zones := data.zones, offers := data.offers } := by
  rw [← uniform.only_eq] at zones ⊢
  rw [fieldsBefore, filter_eq_self zones]
  generalize data.kind false = kind
  cases kind with
  | weight =>
      have takes : Takes groups { Data.empty with offerGroup } (data.weight.toList.map .weight)
          { Data.empty with offerGroup, weight := data.weight } :=
        .optional (fun _ => ⟨[]⟩) (fun unset => by rw [unset]; rfl) fun held set => ⟨rfl, rfl, by rw [set]; rfl⟩
      exact (takes.append .nil).append .nil
  | zones =>
      have takes : Takes groups { Data.empty with offerGroup } (data.zones.toList.map .zones)
          { Data.empty with offerGroup, zones := data.zones } :=
        .optional (fun _ => ⟨[]⟩) (fun unset => by rw [unset]; rfl) fun held set => ⟨rfl, rfl, by rw [set]; rfl⟩
      exact takes.append .nil
  | offer =>
      show Takes groups _ (if data.offers.isEmpty then [] else [.offers data.offers])
        { Data.empty with offerGroup, offers := data.offers }
      split
      · rename_i isEmpty
        rw [List.isEmpty_iff.mp isEmpty]
        exact .nil
      · exact .cons rfl rfl .nil
  | _ => exact .nil

/-- Groups that may be set are not empty, and the scope has them under their names. -/
def Names (groups : List (String × Factions)) (name : Factions → String) (value : Option Factions) : Prop :=
  ∀ factions ∈ value, factions.isEmpty = false ∧ groups.lookup (name factions) = some factions

theorem takes_groupFields (start : Data) (namesOffer : Names groups name data.offerGroup)
    (namesHostile : Names groups name data.hostileGroup) (fits : (start.kind false).acceptsGroups = true)
    (inGroupBlock : Bool) :
    Takes groups { start with offerGroup := if inGroupBlock then data.offerGroup else none, hostileGroup := none }
      (groupFields name data inGroupBlock)
      { start with offerGroup := data.offerGroup, hostileGroup := data.hostileGroup } := by
  have offering : Takes groups
      { start with offerGroup := if inGroupBlock then data.offerGroup else none, hostileGroup := none }
      (if inGroupBlock then [] else data.offerGroup.toList.map fun set => .offerGroup (name set))
      { start with offerGroup := data.offerGroup, hostileGroup := none } := by
    cases inGroupBlock with
    | true => exact .nil
    | false =>
        refine .optional (fun factions => factions) (fun unset => by rw [unset]; rfl) fun held set => ?_
        exact ⟨Bool.and_eq_true_iff.mpr ⟨fits, rfl⟩, (namesOffer held set).2, by rw [set]; rfl⟩
  rw [groupFields, filter_eq_self fun factions held => (namesOffer factions held).1,
    filter_eq_self fun factions held => (namesHostile factions held).1]
  refine offering.append (.optional (fun factions => factions) (fun unset => by rw [unset]) fun held set => ?_)
  exact ⟨Bool.and_eq_true_iff.mpr ⟨fits, rfl⟩, (namesHostile held set).2, by rw [set]; rfl⟩

/-- Data with groups only. -/
def Mission.Data.grouped (offerGroup hostileGroup : Option Factions) : Data :=
  { Data.empty with offerGroup, hostileGroup }

theorem takes_objectiveFields (offerGroup hostileGroup : Option Factions) (reward failure : Option Message)
    (objectives : List Objective) :
    Takes groups (.grouped offerGroup hostileGroup)
      (reward.toList.map .reward ++ failure.toList.map .failure ++ objectives.map .objective)
      { Data.grouped offerGroup hostileGroup with reward, failure, objectives } := by
  have rewarded : Takes groups (.grouped offerGroup hostileGroup) (reward.toList.map .reward)
      { Data.grouped offerGroup hostileGroup with reward } :=
    .optional (fun _ => ⟨[]⟩) (fun unset => by rw [unset]; rfl) fun held set => ⟨rfl, rfl, by rw [set]; rfl⟩
  have failed : Takes groups { Data.grouped offerGroup hostileGroup with reward } (failure.toList.map .failure)
      { Data.grouped offerGroup hostileGroup with reward, failure } := by
    refine .optional (fun _ => ⟨[]⟩) (fun unset => by rw [unset]; rfl) fun held set => ⟨?_, rfl, by rw [set]; rfl⟩
    cases reward <;> rfl
  refine (rewarded.append failed).append ?_
  refine .repeated (fun objectives => { Data.grouped offerGroup hostileGroup with reward, failure, objectives })
    (fun before value => ?_) (fun _ => rfl) (fun _ _ _ => rfl) [] objectives
  cases reward <;> cases failure <;> cases before <;> rfl

theorem takes_fieldsAfter (uniform : data.Uniform) :
    Takes groups
      { Data.grouped data.offerGroup data.hostileGroup with
        weight := data.weight, zones := data.zones, offers := data.offers }
      (fieldsAfter data) { data with implemented := true } := by
  rw [← uniform.only_eq, fieldsAfter]
  generalize data.kind false = kind
  cases kind with
  | objective =>
      exact ((takes_objectiveFields data.offerGroup data.hostileGroup data.reward data.failure
        data.objectives).append .nil).append .nil
  | difficulty =>
      have takes : Takes groups (.grouped data.offerGroup data.hostileGroup) (data.difficulty.toList.map .difficulty)
          { Data.grouped data.offerGroup data.hostileGroup with difficulty := data.difficulty } :=
        .optional (fun _ => ⟨[]⟩) (fun unset => by rw [unset]; rfl) fun held set => ⟨rfl, rfl, by rw [set]; rfl⟩
      exact takes.append .nil
  | comm =>
      refine .repeated (fun comms => { Data.grouped data.offerGroup data.hostileGroup with comms })
        (fun before value => ?_) (fun _ => rfl) (fun _ _ _ => rfl) [] data.comms
      cases before <;> rfl
  | _ => exact .nil

/-- The fields that are written before the groups leave room for groups. -/
theorem acceptsGroups_kind (weight : Option Int32) (zones : Option (List String)) (offers : List Offer) :
    (Data.kind { Data.empty with weight, zones, offers } false).acceptsGroups = true := by
  cases weight <;> cases zones <;> cases offers <;> rfl

/-- In the order in which they are written, an empty node takes all fields of uniform data. -/
theorem takes_fields (plan : Plan) (uniform : data.Uniform) (zones : ∀ names ∈ data.zones, names.isEmpty = false)
    (namesOffer : Names groups (groupName plan.groups) data.offerGroup)
    (namesHostile : Names groups (groupName plan.groups) data.hostileGroup) (inGroupBlock : Bool) :
    Takes groups { Data.empty with offerGroup := if inGroupBlock then data.offerGroup else none }
      (plan.fields data inGroupBlock) { data with implemented := true } := by
  have fits := acceptsGroups_kind data.weight data.zones data.offers
  have grouped := takes_groupFields _ namesOffer namesHostile fits inGroupBlock
  rw [fields_eq]
  exact ((takes_fieldsBefore uniform zones _).append grouped).append (takes_fieldsAfter uniform)

end Fields

/-! ## Fields in a layout -/

section Layouts

variable {graph : Graph} {scope : Scope} {cursor : NodeId} {first last : Nat} {rest : List (Statement Unit)}

/-- Fields that can be taken fill the node under the cursor. -/
theorem Layout.of_takes {data full : Data} {fields : List Field} (takes : Takes scope.groups data fields full)
    (layout : Layout graph scope (.body cursor ⟨.data data, []⟩ (fields.map (.field ()) ++ rest)) first last) :
    Layout graph scope (.body cursor ⟨.data full, []⟩ rest) first last := by
  induction takes with
  | nil => exact layout
  | @cons data _ field _ _ taken known _ ih =>
      cases layout with
      | fieldHere _ knownAgain later =>
          rw [known] at knownAgain
          cases knownAgain
          exact ih later
      | fieldBehind refused _ _ _ =>
          have accepted : data.accepts (data.kind false) field = false := refused
          rw [taken] at accepted
          cases accepted

/-- The mark of a missing mission goes to the node that holds the rest of its data. -/
theorem Layout.of_mark {data : Data}
    (layout : Layout graph scope (.body cursor ⟨.data { data with implemented := true }, []⟩
      ((if data.implemented then [] else [.unimplemented ()]) ++ rest)) first last) :
    Layout graph scope (.body cursor ⟨.data data, []⟩ rest) first last := by
  obtain ⟨weight, implemented, offer, hostile, zones, difficulty, failure, reward, objectives, offers, comms⟩ := data
  cases implemented with
  | true => exact layout
  | false =>
      cases layout with
      | missingHere later => exact later
      | missingBehind other _ _ => cases other

/-- The statements of a data node fill the node under the cursor. -/
theorem Layout.of_dataStatements {plan : Plan} {start data : Data} {inGroupBlock : Bool}
    (takes : Takes scope.groups start (plan.fields data inGroupBlock) { data with implemented := true })
    (layout : Layout graph scope (.body cursor ⟨.data start, []⟩ (plan.dataStatements data inGroupBlock ++ rest))
      first last) :
    Layout graph scope (.body cursor ⟨.data data, []⟩ rest) first last := by
  rw [Plan.dataStatements, List.append_assoc] at layout
  exact (layout.of_takes takes).of_mark

/-- Behind a node that does not take the first of its fields, the statements of a data node fill a new node. -/
theorem Layout.of_refused {plan : Plan} {node : Node} {data : Data} {field : Field} {others : List Field}
    (takes : Takes scope.groups .empty (plan.fields data false) { data with implemented := true })
    (isFirst : plan.fields data false = field :: others) (refused : node.takes field = false)
    (layout : Layout graph scope (.body cursor node (plan.dataStatements data false ++ rest)) first last) :
    graph.get? cursor = some (node.leadingTo first) ∧
      Layout graph scope (.body first ⟨.data data, []⟩ rest) (first + 1) last := by
  rw [Plan.dataStatements, isFirst, List.map_cons, List.append_assoc] at layout
  rw [isFirst] at takes
  cases takes with
  | cons _ known later =>
      cases layout with
      | fieldHere taken _ _ => exact absurd (refused.symm.trans taken) Bool.false_ne_true
      | fieldBehind _ knownAgain found inner =>
          rw [known] at knownAgain
          cases knownAgain
          exact ⟨found, (inner.of_takes later).of_mark⟩

end Layouts

end MissionGraph
