import MissionGraph.Proofs.Ini.Written

/-!
# Compiled graphs as text

What becomes of a compiled graph that is written as text and read back: its numbers must fit, and names
that spell a truth value come back in small letters.
-/

namespace MissionGraph

open Mission (Data)
open Number (Single)

variable {graph : Graph}

/-- The numbers in well-formed contents have no sign. -/
theorem Content.WellFormed.unsigned {content : Content} (formed : content.WellFormed) :
    ∀ value ∈ content.numbers, value.unsigned = true := by
  cases content with
  | data data =>
      intro value member
      rcases List.mem_append.mp member with inDifficulty | inComms
      · obtain ⟨difficulty, isSet, inNumbers⟩ := List.mem_flatMap.mp inDifficulty
        rw [Option.mem_toList] at isSet
        exact List.all_eq_true.mp (formed.difficulty difficulty isSet) value inNumbers
      · obtain ⟨comm, listed, inNumbers⟩ := List.mem_flatMap.mp inComms
        have commFormed := formed.comms comm listed
        simp only [Mission.Comm.wellFormed, Bool.and_eq_true] at commFormed
        exact List.all_eq_true.mp commFormed.1.2 value inNumbers
  | decision _ => exact fun _ member => absurd member List.not_mem_nil
  | documentation _ => exact fun _ member => absurd member List.not_mem_nil
  | choice _ => exact fun _ member => absurd member List.not_mem_nil

theorem Ini.respell_eq_self_iff {name : String} :
    Ini.respell name = name ↔ (Text.sameLetters name "true" = true → name = "true") ∧
      (Text.sameLetters name "false" = true → name = "false") := by
  unfold Ini.respell
  split
  · rename_i isTrue
    have notFalse : Text.sameLetters name "false" = false := by
      rw [Text.sameLetters, (Text.sameLetters_iff _ _).mp isTrue]
      decide +kernel
    constructor
    · intro same
      exact ⟨fun _ => same.symm, fun isFalse => by rw [notFalse] at isFalse; cases isFalse⟩
    · exact fun conditions => (conditions.1 isTrue).symm
  · rename_i notTrue
    split
    · rename_i isFalse
      constructor
      · intro same
        exact ⟨fun isTrue => absurd isTrue notTrue, fun _ => same.symm⟩
      · exact fun conditions => (conditions.2 isFalse).symm
    · rename_i notFalse
      exact iff_of_true rfl ⟨fun isTrue => absurd isTrue notTrue, fun isFalse => absurd isFalse notFalse⟩

namespace Graph.Compiled

theorem lined (compiled : graph.Compiled) : ∀ record ∈ graph.records, ∀ entry ∈ record.entries, entry.Lined := by
  intro record member
  obtain ⟨id, node, found, isRecord⟩ := mem_records_iff.mp member
  exact Record.lined_of_ofNode? (compiled.wellFormed id node found) isRecord

theorem record_of_get? (compiled : graph.Compiled) {id : NodeId} {node : Node} (found : graph.get? id = some node) :
    ∃ record ∈ graph.records, record.id = id ∧ record.children = node.children := by
  obtain ⟨record, isRecord, sameId, sameChildren⟩ := Record.ofNode?_eq_some id (compiled.wellFormed id node found).storable
  exact ⟨record, mem_records_iff.mpr ⟨id, node, found, isRecord⟩, sameId, sameChildren⟩

/-- The records of a compiled graph whose numbers fit into 32 bits are read back. -/
theorem read_write (compiled : graph.Compiled)
    (fits : ∀ id node, graph.get? id = some node → (id : Nat) < 2 ^ 31) :
    Ini.read (Ini.write graph.records) = .ok (graph.records.map (Record.mapValues Ini.reread)) := by
  refine Ini.read_write compiled.lined (fun record member => ?_) fun record member child isChild => ?_
  · obtain ⟨id, node, found, isRecord⟩ := mem_records_iff.mp member
    obtain ⟨_, again, sameId, _⟩ := Record.ofNode?_eq_some id (compiled.wellFormed id node found).storable
    rw [isRecord] at again
    cases again
    exact sameId ▸ fits id node found
  · obtain ⟨id, node, found, isRecord⟩ := mem_records_iff.mp member
    obtain ⟨_, again, _, sameChildren⟩ := Record.ofNode?_eq_some id (compiled.wellFormed id node found).storable
    rw [isRecord] at again
    cases again
    obtain ⟨childNode, foundChild⟩ := compiled.proper.closed id child (child_of_get? found (sameChildren ▸ isChild))
    exact fits child childNode foundChild

/-- Numbers that do not fit are not read back. -/
theorem fits_of_read_write (compiled : graph.Compiled) {records : List Record}
    (success : Ini.read (Ini.write graph.records) = .ok records) {id : NodeId} {node : Node}
    (found : graph.get? id = some node) : (id : Nat) < 2 ^ 31 := by
  refine Decidable.not_not.mp fun large => ?_
  obtain ⟨record, member, sameId, _⟩ := compiled.record_of_get? found
  obtain ⟨fault, failed⟩ := Ini.read_write_error compiled.lined member (sameId ▸ large)
  rw [success] at failed
  cases failed

theorem keepsNumber_iff (compiled : graph.Compiled) {id : NodeId} {node : Node} (found : graph.get? id = some node)
    {value : Single} (member : value ∈ node.content.numbers) :
    KeepsNumber Ini.reread value ↔ value.isFinite = true := by
  rw [KeepsNumber, Ini.float?_reread ((compiled.wellFormed id node found).unsigned value member)]
  cases value.isFinite <;> simp

/-- Finite numbers are read back, and names in the spelling in which they come back. -/
theorem load_read_write (compiled : graph.Compiled)
    (finite : ∀ id node, graph.get? id = some node → ∀ value ∈ node.content.numbers, value.isFinite = true) :
    ∃ loaded, ofRecords (graph.records.map (Record.mapValues Ini.reread)) = .ok loaded ∧
      ∀ id, loaded.get? id = (graph.get? id).map (Node.mapNames Ini.respell) :=
  ofRecords_mapValues Ini.rereads_reread compiled.proper compiled.wellFormed
    fun id node found value member => (compiled.keepsNumber_iff found member).mpr (finite id node found value member)

theorem finite_of_load (compiled : graph.Compiled) {loaded : Graph}
    (success : ofRecords (graph.records.map (Record.mapValues Ini.reread)) = .ok loaded) {id : NodeId} {node : Node}
    (found : graph.get? id = some node) : ∀ value ∈ node.content.numbers, value.isFinite = true := by
  intro value member
  have isNumber := isSome_float?_of_ofRecords success found value member
  rw [Ini.float?_reread ((compiled.wellFormed id node found).unsigned value member)] at isNumber
  cases isFinite : value.isFinite with
  | true => rfl
  | false =>
      rw [isFinite] at isNumber
      cases isNumber

end Graph.Compiled

/-- A compiled graph that is written as text is read back as the same nodes exactly if the numbers of its
nodes fit into 32 bits, all its numbers are finite, and no name in it spells a truth value in other than
small letters. -/
theorem ini_round_trip_iff {source : String} (success : (compile source).result = .ok graph) :
    ∃ direct, Graph.ofRecords graph.records = .ok direct ∧
      ((∃ records loaded, Ini.read (Ini.write graph.records) = .ok records ∧
          Graph.ofRecords records = .ok loaded ∧ loaded.nodes = direct.nodes) ↔
        ∀ id node, graph.get? id = some node → (id : Nat) < 2 ^ 31 ∧
          (∀ value ∈ node.content.numbers, value.isFinite = true) ∧
          ∀ name ∈ node.content.names, (Text.sameLetters name "true" = true → name = "true") ∧
            (Text.sameLetters name "false" = true → name = "false")) := by
  have compiled := compiled_of_compile success
  obtain ⟨direct, loadsDirect, sameNodes⟩ := Graph.ofRecords_records compiled.proper compiled.wellFormed
  refine ⟨direct, loadsDirect, ?_, ?_⟩
  · rintro ⟨records, loaded, read, loads, same⟩ id node found
    have fits (key : NodeId) (other : Node) (foundOther : graph.get? key = some other) :=
      compiled.fits_of_read_write read foundOther
    rw [compiled.read_write fits] at read
    cases read
    have finite (key : NodeId) (other : Node) (foundOther : graph.get? key = some other) :=
      compiled.finite_of_load loads foundOther
    obtain ⟨again, loadsAgain, respelled⟩ := compiled.load_read_write finite
    rw [loads] at loadsAgain
    cases loadsAgain
    have unchanged : (graph.get? id).map (Node.mapNames Ini.respell) = graph.get? id := by
      rw [← respelled, Graph.get?, same, sameNodes]
      rfl
    rw [found] at unchanged
    have sameContent := congrArg Node.content (Option.some.inj unchanged)
    refine ⟨fits id node found, finite id node found, fun name member => ?_⟩
    exact Ini.respell_eq_self_iff.mp (Content.mapNames_eq_self_iff.mp sameContent name member)
  · intro conditions
    obtain ⟨loaded, loads, respelled⟩ := compiled.load_read_write fun id node found => (conditions id node found).2.1
    refine ⟨_, loaded, compiled.read_write fun id node found => (conditions id node found).1, loads, ?_⟩
    rw [sameNodes]
    refine Std.ExtTreeMap.ext_getElem? fun {id} => (respelled id).trans ?_
    cases found : graph.get? id with
    | none => exact found.symm
    | some node =>
        have sameContent : node.content.mapNames Ini.respell = node.content :=
          Content.mapNames_eq_self_iff.mpr fun name member =>
            Ini.respell_eq_self_iff.mpr ((conditions id node found).2.2 name member)
        rw [Option.map_some, Node.mapNames, sameContent]
        exact found.symm

/-- A node with limits and names, one of them a truth value in small letters. -/
def limited : String :=
  "difficulty 0.5, 20; doc true;"

/-- What decides about the coming back of such a node. -/
theorem ini_round_trip_iff_limits : ∃ graph direct,
    (compile limited).result = .ok graph ∧ Graph.ofRecords graph.records = .ok direct ∧
      ((∃ records loaded, Ini.read (Ini.write graph.records) = .ok records ∧
          Graph.ofRecords records = .ok loaded ∧ loaded.nodes = direct.nodes) ↔
        ∀ id node, graph.get? id = some node → (id : Nat) < 2 ^ 31 ∧
          (∀ value ∈ node.content.numbers, value.isFinite = true) ∧
          ∀ name ∈ node.content.names, (Text.sameLetters name "true" = true → name = "true") ∧
            (Text.sameLetters name "false" = true → name = "false")) := by
  have compiles : (compile limited).result.toOption.isSome = true := by decide +kernel
  obtain ⟨graph, success⟩ := Success.exists_of_isSome compiles
  obtain ⟨direct, loads, exactly⟩ := ini_round_trip_iff success
  exact ⟨graph, direct, success, loads, exactly⟩

/-- Not every compiled graph comes back: the name `True` comes back in small letters. -/
theorem not_ini_round_trip : ¬ ∀ source graph, (compile source).result = .ok graph →
    ∃ direct records loaded, Graph.ofRecords graph.records = .ok direct ∧
      Ini.read (Ini.write graph.records) = .ok records ∧ Graph.ofRecords records = .ok loaded ∧
      loaded.nodes = direct.nodes := by
  intro always
  have evaluated : (do
      let graph ← (compile "doc True;").result.toOption
      let direct ← (Graph.ofRecords graph.records).toOption
      let records ← (Ini.read (Ini.write graph.records)).toOption
      let loaded ← (Graph.ofRecords records).toOption
      return (direct.get? Graph.entry, loaded.get? Graph.entry)) =
      some (some ⟨.documentation "True", []⟩, some ⟨.documentation "true", []⟩) := by
    decide +kernel
  obtain ⟨graph, success, evaluated⟩ := Success.exists_of_toOption_bind evaluated
  obtain ⟨direct, records, loaded, loadsDirect, read, loads, same⟩ := always _ _ success
  have sameEntry : loaded.get? Graph.entry = direct.get? Graph.entry := by
    rw [Graph.get?, Graph.get?, same]
  simp only [loadsDirect, read, loads, Except.toOption, Option.bind_eq_bind, Option.bind_some, sameEntry,
    Option.pure_def, Option.some.injEq, Prod.mk.injEq] at evaluated
  have different := evaluated.1.symm.trans evaluated.2
  simp at different

end MissionGraph
