import MissionGraph.Proofs.Record.Loading
import MissionGraph.Proofs.Script.Words

/-!
# Records that can be written as a script

A value is plain if a script has a word for it. The nodes of records with plain values hold only what can
be written down: this is what every reader of values yields.
-/

namespace MissionGraph

open Mission (Comm Data Difficulty Factions Field Message Objective Offer OfferItem Plurality)
open Number (Single)
open Script (Condition isName)

/-- A script has a word for the value: names are names of a script, and numbers are finite and have no
minus in front. -/
def Value.plain : Value → Bool
  | .int value => 0 ≤ value.toInt
  | .float value => value.unsigned && value.isFinite
  | .bool _ => true
  | .name text => isName text

/-- All values of the record are plain. -/
def Record.Plain (record : Record) : Prop :=
  ∀ entry ∈ record.entries, ∀ value ∈ entry.values, value.plain = true

instance (record : Record) : Decidable record.Plain :=
  inferInstanceAs (Decidable (∀ entry ∈ record.entries, ∀ value ∈ entry.values, value.plain = true))

/-- All values of the node can be written down, and all its numbers have digits. Lists may be empty. -/
structure Mission.Data.Writable (data : Data) : Prop where
  weight : ∀ value ∈ data.weight, 0 ≤ value.toInt
  offerGroup : ∀ factions ∈ data.offerGroup, ∀ name ∈ factions.names, isName name = true
  hostileGroup : ∀ factions ∈ data.hostileGroup, ∀ name ∈ factions.names, isName name = true
  zones : ∀ names ∈ data.zones, ∀ name ∈ names, isName name = true
  difficulty : ∀ value ∈ data.difficulty, (Field.difficulty value).writable = true
  failure : ∀ value ∈ data.failure, value.wellFormed = true
  reward : ∀ value ∈ data.reward, value.wellFormed = true
  objectives : ∀ value ∈ data.objectives, value.wellFormed = true
  offers : ∀ value ∈ data.offers, value.wellFormed = true
  comms : ∀ value ∈ data.comms, (Field.comm value).writable = true

/-- All names and numbers of the content can be written down. -/
def Content.Writable : Content → Prop
  | .data values => values.Writable
  | .decision nickname => (Condition.named nickname).wellFormed = true
  | .documentation text => isName text = true
  | .choice _ => False

namespace ValueReader

variable {α β : Type} {reader : ValueReader α} {good : α → Prop}

/-- From plain values the reader yields only good results, and it leaves plain values. -/
def Yields (reader : ValueReader α) (good : α → Prop) : Prop :=
  ∀ values result rest, (∀ value ∈ values, value.plain = true) → reader.run values = .ok (result, rest) →
    good result ∧ ∀ value ∈ rest, value.plain = true

theorem yields_pure {result : α} (isGood : good result) : Yields (pure result) good := by
  intro values other rest plain success
  cases success
  exact ⟨isGood, plain⟩

theorem yields_throw {fault : EntryFault} : Yields (throw fault) good := by
  intro values other rest plain success
  cases success

theorem Yields.bind {next : α → ValueReader β} {goodLater : β → Prop} (yields : Yields reader good)
    (later : ∀ result, good result → Yields (next result) goodLater) : Yields (reader >>= next) goodLater := by
  intro values result rest plain success
  obtain ⟨first, middle, read, continued⟩ := of_run_bind_ok success
  obtain ⟨isGood, plainMiddle⟩ := yields values first middle plain read
  exact later first isGood middle result rest plainMiddle continued

theorem yields_next {sort : ValueSort} {read? : Value → Option α}
    (reads : ∀ value result, value.plain = true → read? value = some result → good result) :
    Yields (next sort read?) good := by
  intro values result rest plain success
  cases values with
  | nil => cases success
  | cons value others =>
      obtain ⟨isPlain, plainOthers⟩ := List.forall_mem_cons.mp plain
      obtain ⟨read, rfl⟩ := of_run_next_ok success
      exact ⟨reads value result isPlain read, plainOthers⟩

theorem yields_int : Yields int fun value => 0 ≤ value.toInt := by
  refine yields_next fun value result plain read => ?_
  cases value with
  | int number =>
      cases read
      exact of_decide_eq_true plain
  | _ => cases read

theorem yields_float : Yields float fun value => value.unsigned = true ∧ value.isFinite = true := by
  refine yields_next fun value result plain read => ?_
  cases value with
  | int number =>
      obtain ⟨nearest, same, sign⟩ := Single.exists_finite_ofInt (of_decide_eq_true plain)
      cases read
      rw [same, Single.unsigned, sign]
      exact ⟨rfl, rfl⟩
  | float number =>
      cases read
      exact Bool.and_eq_true_iff.mp plain
  | _ => cases read

theorem yields_bool : Yields bool fun _ => True :=
  yields_next fun _ _ _ _ => trivial

theorem isName_of_name? {value : Value} {text : String} (plain : value.plain = true)
    (read : value.name? = some text) : isName text = true := by
  cases value with
  | name other =>
      cases read
      exact plain
  | bool truth =>
      cases read
      cases truth <;> decide
  | _ => cases read

theorem yields_name : Yields name fun text => isName text = true :=
  yields_next fun _ _ plain read => isName_of_name? plain read

theorem yields_keyword {ofWord? : String → Option α} : Yields (keyword ofWord?) fun _ => True := by
  refine yields_name.bind fun word _ => ?_
  split
  · exact yields_pure trivial
  · exact yields_throw

theorem isName_of_allNames {values : List Value} {names : List String} (plain : ∀ value ∈ values, value.plain = true)
    (read : allNames values = .ok names) : ∀ text ∈ names, isName text = true := by
  induction values generalizing names with
  | nil =>
      cases read
      exact nofun
  | cons value others ih =>
      obtain ⟨isPlain, plainOthers⟩ := List.forall_mem_cons.mp plain
      rw [allNames] at read
      split at read
      · rename_i text isText
        obtain ⟨later, readLater, rfl⟩ := Success.map_eq_ok_iff.mp read
        exact List.forall_mem_cons.mpr ⟨isName_of_name? isPlain isText, ih plainOthers readLater⟩
      · cases read

theorem yields_names : Yields names fun texts => ∀ text ∈ texts, isName text = true := by
  intro values texts rest plain success
  obtain ⟨_, _, got, continued⟩ := of_run_bind_ok success
  cases got
  obtain ⟨found, _, read, finished⟩ := of_run_bind_ok continued
  cases finished
  obtain ⟨names, isRead, lifted⟩ := Success.bind_eq_ok_iff.mp read
  cases lifted
  exact ⟨isName_of_allNames plain isRead, nofun⟩

theorem yields_message : Yields message fun value => value.wellFormed = true := by
  refine yields_int.bind fun id nonnegative => yields_names.bind fun args named => yields_pure ?_
  exact Bool.and_eq_true_iff.mpr ⟨decide_eq_true nonnegative, List.all_eq_true.mpr named⟩

theorem yields_objective : Yields objective fun value => value.wellFormed = true := by
  refine yields_name.bind fun target named => yields_message.bind fun message formed => yields_pure ?_
  exact Bool.and_eq_true_iff.mpr ⟨named, formed⟩

theorem yields_difficulty : Yields difficulty fun value => (Field.difficulty value).writable = true := by
  refine yields_float.bind fun lower ⟨lowerUnsigned, lowerFinite⟩ => ?_
  refine yields_float.bind fun upper ⟨upperUnsigned, upperFinite⟩ => yields_pure ?_
  simp [Field.writable, Field.wellFormed, Field.numbers, Difficulty.wellFormed, Difficulty.numbers, *]

theorem yields_comm : Yields comm fun value => (Field.comm value).writable = true := by
  refine yields_name.bind fun event isEvent => yields_keyword.bind fun hearer _ => ?_
  refine yields_float.bind fun first ⟨firstUnsigned, firstFinite⟩ => ?_
  refine yields_float.bind fun second ⟨secondUnsigned, secondFinite⟩ => ?_
  refine yields_float.bind fun third ⟨thirdUnsigned, thirdFinite⟩ => ?_
  refine yields_keyword.bind fun speaker _ => yields_name.bind fun text isText => yields_pure ?_
  simp [Field.writable, Field.wellFormed, Field.numbers, Comm.wellFormed, Comm.numbers, *]

/-! ## Offers -/

/-- The names of an item are names of a script and mark no further item. -/
theorem splitArgs_plain {values : List Value} (plain : ∀ value ∈ values, value.plain = true) :
    (∀ arg ∈ (splitArgs values).1, isName arg = true ∧ (Plurality.ofMarker? arg).isNone = true) ∧
      ∀ value ∈ (splitArgs values).2, value.plain = true := by
  have noArgs : ∀ arg ∈ ([] : List String), isName arg = true ∧ (Plurality.ofMarker? arg).isNone = true :=
    fun _ member => absurd member List.not_mem_nil
  fun_induction splitArgs values with
  | case1 => exact ⟨noArgs, plain⟩
  | case2 value rest text isText unmarked args later split ih =>
      obtain ⟨isPlain, plainRest⟩ := List.forall_mem_cons.mp plain
      obtain ⟨named, plainLater⟩ := ih plainRest
      rw [split] at named plainLater
      refine ⟨List.forall_mem_cons.mpr ⟨⟨isName_of_name? isPlain isText, ?_⟩, named⟩, plainLater⟩
      rw [marker?, isText] at unmarked
      exact Option.isNone_iff_eq_none.mpr unmarked
  | case3 value rest _ => exact ⟨noArgs, plain⟩

theorem splitMarker_plain {first : Value} {rest : List Value} (plain : ∀ value ∈ first :: rest, value.plain = true) :
    ∀ value ∈ (splitMarker first rest).2, value.plain = true := by
  unfold splitMarker
  split
  · exact (List.forall_mem_cons.mp plain).2
  · exact plain

theorem wellFormed_of_offerItems {values : List Value} {items : List OfferItem}
    (plain : ∀ value ∈ values, value.plain = true) (read : offerItems values = .ok items) :
    ∀ item ∈ items, item.wellFormed = true := by
  fun_induction offerItems values generalizing items with
  | case1 =>
      cases read
      exact nofun
  | case2 => cases read
  | case3 => cases read
  | case4 first rest plurality value more split id isInt ih =>
      have plainLater := splitMarker_plain plain
      rw [split] at plainLater
      obtain ⟨isPlain, plainMore⟩ := List.forall_mem_cons.mp plainLater
      obtain ⟨named, plainRest⟩ := splitArgs_plain plainMore
      obtain ⟨others, readOthers, rfl⟩ := Success.map_eq_ok_iff.mp read
      refine List.forall_mem_cons.mpr ⟨?_, ih plainRest readOthers⟩
      have nonnegative : 0 ≤ id.toInt := by
        cases value with
        | int number =>
            cases isInt
            exact of_decide_eq_true isPlain
        | _ => cases isInt
      simp only [OfferItem.wellFormed, Message.wellFormed, Bool.and_eq_true, List.all_eq_true, decide_eq_true_eq]
      exact ⟨⟨nonnegative, fun arg member => (named arg member).1⟩, fun arg member => (named arg member).2⟩

theorem yields_offer : Yields offer fun value => value.wellFormed = true := by
  refine yields_keyword.bind fun mode _ => ?_
  intro values value rest plain success
  obtain ⟨_, _, got, continued⟩ := of_run_bind_ok success
  cases got
  obtain ⟨items, _, read, finished⟩ := of_run_bind_ok continued
  obtain ⟨found, isRead, lifted⟩ := Success.bind_eq_ok_iff.mp read
  cases lifted
  obtain ⟨_, _, emptied, checked⟩ := of_run_bind_ok finished
  cases emptied
  by_cases isEmpty : items.isEmpty = true
  · rw [if_pos isEmpty] at checked
    cases checked
  · rw [if_neg isEmpty] at checked
    cases checked
    refine ⟨?_, nofun⟩
    simp only [Offer.wellFormed, Bool.and_eq_true, Bool.not_eq_true', List.all_eq_true]
    exact ⟨eq_false_of_ne_true isEmpty, wellFormed_of_offerItems plain isRead⟩

end ValueReader

/-! ## Data -/

namespace Mission.Data.Writable

theorem empty : Data.empty.Writable := by
  constructor <;> intro value member <;> cases member

end Mission.Data.Writable

open Mission.Data.WellFormed (mem_some mem_snoc)

/-- Every entry of plain values changes data so that it can still be written down. -/
theorem ValueReader.yields_dataChange (name : String) :
    Yields (dataChange name) fun change => ∀ data : Data, data.Writable → (change data).Writable := by
  unfold dataChange
  split
  · refine yields_int.bind fun value nonnegative => yields_pure fun data writable => ?_
    exact { writable with weight := mem_some nonnegative }
  · refine yields_bool.bind fun value _ => yields_pure fun data writable => ?_
    exact { writable with }
  · refine yields_names.bind fun value named => yields_pure fun data writable => ?_
    exact { writable with offerGroup := mem_some named }
  · refine yields_names.bind fun value named => yields_pure fun data writable => ?_
    exact { writable with hostileGroup := mem_some named }
  · refine yields_names.bind fun value named => yields_pure fun data writable => ?_
    exact { writable with zones := mem_some named }
  · refine yields_difficulty.bind fun value formed => yields_pure fun data writable => ?_
    exact { writable with difficulty := mem_some formed }
  · refine yields_message.bind fun value formed => yields_pure fun data writable => ?_
    exact { writable with failure := mem_some formed }
  · refine yields_message.bind fun value formed => yields_pure fun data writable => ?_
    exact { writable with reward := mem_some formed }
  · refine yields_objective.bind fun value formed => yields_pure fun data writable => ?_
    exact { writable with objectives := mem_snoc writable.objectives formed }
  · refine yields_offer.bind fun value formed => yields_pure fun data writable => ?_
    exact { writable with offers := mem_snoc writable.offers formed }
  · refine yields_comm.bind fun value formed => yields_pure fun data writable => ?_
    exact { writable with comms := mem_snoc writable.comms formed }
  · exact yields_throw

namespace Record

theorem of_inEntry_eq_ok {α : Type} {id : NodeId} {entry : Entry} {result : Except EntryFault α} {value : α}
    (success : inEntry id entry result = .ok value) : result = .ok value := by
  cases result with
  | ok other =>
      cases success
      rfl
  | error fault => cases success

theorem of_readAll_eq_ok {α : Type} {reader : ValueReader α} {values : List Value} {result : α}
    (success : reader.readAll values = .ok result) : reader.run values = .ok (result, []) := by
  unfold ValueReader.readAll at success
  split at success
  · cases success
  · rename_i run
    cases success
    exact run
  · cases success

theorem writable_of_readEntry {id : NodeId} {data changed : Data} {entry : Entry} (writable : data.Writable)
    (plain : ∀ value ∈ entry.values, value.plain = true) (read : readEntry id data entry = .ok changed) :
    changed.Writable := by
  obtain ⟨change, isRead, rfl⟩ := Success.map_eq_ok_iff.mp (of_inEntry_eq_ok read)
  exact (ValueReader.yields_dataChange _ _ _ _ plain (of_readAll_eq_ok isRead)).1 data writable

theorem writable_of_foldlM {id : NodeId} {data changed : Data} {entries : List Entry} (writable : data.Writable)
    (plain : ∀ entry ∈ entries, ∀ value ∈ entry.values, value.plain = true)
    (read : entries.foldlM (readEntry id) data = .ok changed) : changed.Writable := by
  induction entries generalizing data with
  | nil =>
      cases read
      exact writable
  | cons entry others ih =>
      rw [List.foldlM_cons] at read
      obtain ⟨next, isRead, continued⟩ := Success.bind_eq_ok_iff.mp read
      obtain ⟨isPlain, plainOthers⟩ := List.forall_mem_cons.mp plain
      exact ih (writable_of_readEntry writable isPlain isRead) plainOthers continued

theorem isName_of_readNamed {id : NodeId} {name text : String} {entry : Entry}
    (plain : ∀ value ∈ entry.values, value.plain = true) (read : readNamed id name entry = .ok text) :
    isName text = true := by
  have named := of_inEntry_eq_ok read
  split at named
  · exact (ValueReader.yields_name _ _ _ plain (of_readAll_eq_ok named)).1
  · cases named

theorem isName_of_foldlM {id : NodeId} {name : String} {entries : List Entry} {older last : Option String}
    (plain : ∀ entry ∈ entries, ∀ value ∈ entry.values, value.plain = true)
    (read : entries.foldlM (fun _ entry => (readNamed id name entry).map some) older = .ok last)
    (named : ∀ text ∈ older, isName text = true) :
    ∀ text ∈ last, isName text = true := by
  induction entries generalizing older with
  | nil =>
      cases read
      exact named
  | cons entry others ih =>
      rw [List.foldlM_cons] at read
      obtain ⟨next, isNext, continued⟩ := Success.bind_eq_ok_iff.mp read
      obtain ⟨value, isRead, rfl⟩ := Success.map_eq_ok_iff.mp isNext
      obtain ⟨isPlain, plainOthers⟩ := List.forall_mem_cons.mp plain
      exact ih plainOthers continued (mem_some (isName_of_readNamed isPlain isRead))

theorem isName_of_readSingle {id : NodeId} {name text : String} {entries : List Entry}
    (plain : ∀ entry ∈ entries, ∀ value ∈ entry.values, value.plain = true)
    (read : readSingle id name entries = .ok text) : isName text = true := by
  obtain ⟨last, folded, chosen⟩ := Success.bind_eq_ok_iff.mp read
  have named := isName_of_foldlM plain folded nofun
  cases last with
  | none => cases chosen
  | some value =>
      cases chosen
      exact named text rfl

/-- The node of a record with plain values can be written down, unless it is a decision named like a group. -/
theorem writable_of_node {record : Record} {node : Node} (plain : record.Plain) (read : record.node = .ok node)
    (notGroup : node.content ≠ .decision "group") : node.content.Writable := by
  obtain ⟨_, ⟨data, isData, isRead⟩ | ⟨nickname, isDecision, isRead⟩ | ⟨text, isText, isRead⟩⟩ := of_node_eq_ok read
  · rw [isData]
    exact writable_of_foldlM .empty plain isRead
  · rw [isDecision]
    have other : nickname ≠ "group" := by
      rintro rfl
      exact notGroup isDecision
    exact Bool.and_eq_true_iff.mpr ⟨isName_of_readSingle plain isRead, bne_iff_ne.mpr other⟩
  · rw [isText]
    exact isName_of_readSingle plain isRead

end Record

/-- The nodes of a graph that has been read from plain records can be written down. -/
theorem Graph.writable_of_ofRecords {records : List Record} {loaded : Graph} (success : ofRecords records = .ok loaded)
    (plain : ∀ record ∈ records, record.Plain)
    (notGroup : ∀ id children, loaded.get? id ≠ some ⟨.decision "group", children⟩) {id : NodeId} {node : Node}
    (found : loaded.get? id = some node) : node.content.Writable := by
  obtain ⟨record, member, _, read⟩ := exists_record success found
  refine Record.writable_of_node (plain record member) read fun isGroup => ?_
  obtain ⟨content, children⟩ := node
  cases isGroup
  exact notGroup id children found

end MissionGraph
