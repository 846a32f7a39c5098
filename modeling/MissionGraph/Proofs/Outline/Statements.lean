import MissionGraph.Proofs.Build.Progress
import MissionGraph.Proofs.Outline.Written
import MissionGraph.Proofs.Record.Plain

/-!
# The statements of a draft

The tests of a decision are its nickname or groups of the graph, and the fields of a data node are values of
the node or groups of the graph. So if the nodes of a graph can be written down, the statements of a draft
can be too, and they can be built: an `if` is always the last statement of its body, and every group and
every sub that they refer to is declared.
-/

namespace MissionGraph.Outline

open Mission (Comm Data Difficulty Factions Field Message Objective Offer)
open Script (Block Condition Group Statement Undeclaring Writable isName wellFormedBlocks)

variable {plan : Plan} {graph : Graph} {groups : List Group} {references : References}
  {tests : List (NodeId × Tests)} {id : NodeId} {scope : Scope}

/-! ## Tests -/

theorem holds_of_offerGroup? {factions : Factions} (offers : offerGroup? graph id = some factions) :
    Holds graph factions ∧ factions.isEmpty = false := by
  obtain ⟨node, found, isNode⟩ := Option.bind_eq_some_iff.mp offers
  obtain ⟨data, isData, named⟩ := Option.bind_eq_some_iff.mp isNode
  obtain ⟨isOffer, nonempty⟩ := Option.filter_eq_some_iff.mp named
  refine ⟨⟨id, node, found, ?_⟩, by simpa using nonempty⟩
  rw [factionsOf, isData]
  exact List.mem_append_left _ (Option.mem_toList.mpr isOffer)

/-- The condition is one that a decision of the graph can test. -/
inductive Tested (graph : Graph) (groups : List Group) : Condition → Prop where
  | named {id : NodeId} {nickname : String} {children : List NodeId}
      (found : graph.get? id = some ⟨.decision nickname, children⟩) : Tested graph groups (.named nickname)
  | group {factions : Factions} (held : Holds graph factions) (nonempty : factions.isEmpty = false) :
      Tested graph groups (.group (groupName groups factions))

theorem Tested.asTest_eq {condition : Condition} (tested : Tested graph groups condition) :
    asTest condition = condition := by
  cases tested <;> rfl

/-- A decision tests what it can test; a second test is for a group. -/
theorem Planned.tested (planned : Planned graph groups references tests) {nickname : String} {one two : NodeId}
    (found : graph.get? id = some ⟨.decision nickname, [one, two]⟩) :
    Tested graph groups (testsFor tests id).first ∧
      ∀ second ∈ (testsFor tests id).second, Tested graph groups second ∧ second.isNamed = false := by
  have isTest := testsOf_eq planned.tests found
  rw [testsOf] at isTest
  split at isTest
  · split at isTest
    · rename_i factions offers
      obtain ⟨held, nonempty⟩ := holds_of_offerGroup? offers
      rw [← Except.ok.inj isTest]
      refine ⟨.group held nonempty, fun second member => ?_⟩
      obtain ⟨others, offersToo, rfl⟩ := Option.map_eq_some_iff.mp member
      split at offersToo
      · obtain ⟨heldToo, nonemptyToo⟩ := holds_of_offerGroup? offersToo
        exact ⟨.group heldToo nonemptyToo, rfl⟩
      · cases offersToo
    · cases isTest
  · rw [← Except.ok.inj isTest]
    exact ⟨.named found, fun second member => absurd member (Option.not_mem_none second)⟩

theorem Chain.tested {conditions : List Condition} {children decisions : List NodeId}
    (chain : Chain graph references tests id conditions children decisions)
    (planned : Planned graph groups references tests) :
    ∀ condition ∈ conditions, Tested graph groups condition := by
  induction chain with
  | last found =>
      obtain ⟨first, second⟩ := planned.tested found
      refine List.forall_mem_cons.mpr ⟨first, fun condition member => ?_⟩
      exact (second condition (Option.mem_toList.mp member)).1
  | cons found _ _ ih => exact List.forall_mem_cons.mpr ⟨(planned.tested found).1, ih⟩

/-- The blocks of a chain can be written down if its tests can. -/
theorem Chain.wellFormedBlocks {conditions : List Condition} {children decisions : List NodeId}
    (chain : Chain graph references tests id conditions children decisions)
    (planned : Planned graph groups references tests)
    (formed : ∀ condition, Tested graph groups condition → condition.wellFormed = true) {outlines : List Outline}
    (enough : outlines.length = children.length) : wellFormedBlocks (blocks conditions outlines) = true := by
  have written {condition : Condition} (tested : Tested graph groups condition) :
      (asTest condition).wellFormed = true ∧ asTest condition ≠ .otherwise := by
    have wellFormed := formed condition tested
    cases tested with
    | group held nonempty => exact ⟨wellFormed, Condition.noConfusion⟩
    | named found => exact ⟨wellFormed, Condition.noConfusion⟩
  induction chain generalizing outlines with
  | @last id one two nickname found =>
      obtain ⟨first, last, rfl⟩ := List.length_eq_two.mp enough
      obtain ⟨testedFirst, testedSecond⟩ := planned.tested found
      obtain ⟨firstFormed, notElse⟩ := written testedFirst
      cases second : (testsFor tests id).second with
      | none =>
          rw [Tests.toList, second]
          exact Script.wellFormedBlocks_pair firstFormed notElse rfl rfl
      | some condition =>
          obtain ⟨tested, notNamed⟩ := testedSecond condition second
          rw [Tests.toList, second]
          exact Script.wellFormedBlocks_pair firstFormed notElse (written tested).1
            (show (asTest condition).isNamed = false from tested.asTest_eq.symm ▸ notNamed)
  | cons found _ _ ih =>
      cases outlines with
      | nil => cases enough
      | cons outline others =>
          obtain ⟨firstFormed, notElse⟩ := written (planned.tested found).1
          exact Script.wellFormedBlocks_cons firstFormed notElse (ih (Nat.succ.inj enough))

/-! ## Fields -/

/-- The fields that can be written for data. -/
inductive FieldOf (groups : List Group) (data : Data) : Field → Prop where
  | weight {value : Int32} (held : value ∈ data.weight) : FieldOf groups data (.weight value)
  | zones {names : List String} (held : names ∈ data.zones) (nonempty : names ≠ []) :
      FieldOf groups data (.zones names)
  | offers (nonempty : data.offers ≠ []) : FieldOf groups data (.offers data.offers)
  | offerGroup {factions : Factions} (held : factions ∈ data.offerGroup) (nonempty : factions.isEmpty = false) :
      FieldOf groups data (.offerGroup (groupName groups factions))
  | hostileGroup {factions : Factions} (held : factions ∈ data.hostileGroup) (nonempty : factions.isEmpty = false) :
      FieldOf groups data (.hostileGroup (groupName groups factions))
  | reward {value : Message} (held : value ∈ data.reward) : FieldOf groups data (.reward value)
  | failure {value : Message} (held : value ∈ data.failure) : FieldOf groups data (.failure value)
  | objective {value : Objective} (held : value ∈ data.objectives) : FieldOf groups data (.objective value)
  | difficulty {value : Difficulty} (held : value ∈ data.difficulty) : FieldOf groups data (.difficulty value)
  | comm {value : Comm} (held : value ∈ data.comms) : FieldOf groups data (.comm value)

theorem fieldOf_of_mem_fields {data : Data} {inGroupBlock : Bool} {field : Field}
    (member : field ∈ plan.fields data inGroupBlock) : FieldOf plan.groups data field := by
  have optional {α : Type} {value : Option α} {make : α → Field} (inside : field ∈ value.toList.map make) :
      ∃ inner ∈ value, field = make inner := by
    obtain ⟨inner, held, rfl⟩ := List.mem_map.mp inside
    exact ⟨inner, Option.mem_toList.mp held, rfl⟩
  have named {value : Option Factions} {make : String → Field}
      (inside : field ∈ (value.filter (!·.isEmpty)).toList.map fun set => make (groupName plan.groups set)) :
      ∃ factions ∈ value, factions.isEmpty = false ∧ field = make (groupName plan.groups factions) := by
    obtain ⟨factions, held, same⟩ := optional inside
    obtain ⟨isHeld, nonempty⟩ := Option.filter_eq_some_iff.mp held
    exact ⟨factions, isHeld, by simpa using nonempty, same⟩
  simp only [Plan.fields, List.mem_append] at member
  rcases member with ((((((((isWeight | isZones) | isOffers) | isOfferGroup) | isHostile) | isReward) | isFailure) |
    isObjective) | isDifficulty) | isComm
  · obtain ⟨value, held, rfl⟩ := optional isWeight
    exact .weight held
  · obtain ⟨names, held, rfl⟩ := optional isZones
    obtain ⟨isHeld, nonempty⟩ := Option.filter_eq_some_iff.mp held
    exact .zones isHeld (by simpa using nonempty)
  · split at isOffers
    · cases isOffers
    · rename_i nonempty
      rw [List.mem_singleton.mp isOffers]
      exact .offers (by simpa using nonempty)
  · split at isOfferGroup
    · cases isOfferGroup
    · obtain ⟨factions, held, nonempty, rfl⟩ := named isOfferGroup
      exact .offerGroup held nonempty
  · obtain ⟨factions, held, nonempty, rfl⟩ := named isHostile
    exact .hostileGroup held nonempty
  · obtain ⟨value, held, rfl⟩ := optional isReward
    exact .reward held
  · obtain ⟨value, held, rfl⟩ := optional isFailure
    exact .failure held
  · obtain ⟨value, held, rfl⟩ := List.mem_map.mp isObjective
    exact .objective held
  · obtain ⟨value, held, rfl⟩ := optional isDifficulty
    exact .difficulty held
  · obtain ⟨value, held, rfl⟩ := List.mem_map.mp isComm
    exact .comm held

/-- A field refers to a group only for factions that its node holds. -/
theorem FieldOf.groupName {data : Data} {field : Field} (isField : FieldOf groups data field) {children : List NodeId}
    (found : graph.get? id = some ⟨.data data, children⟩) {name : String} (refers : field.groupName? = some name) :
    ∃ factions, Holds graph factions ∧ factions.isEmpty = false ∧ name = Outline.groupName groups factions := by
  have held {factions : Factions} (member : factions ∈ data.offerGroup.toList ++ data.hostileGroup.toList) :
      Holds graph factions := ⟨id, _, found, member⟩
  cases isField with
  | @offerGroup factions isHeld nonempty =>
      cases refers
      exact ⟨factions, held (List.mem_append_left _ (Option.mem_toList.mpr isHeld)), nonempty, rfl⟩
  | @hostileGroup factions isHeld nonempty =>
      cases refers
      exact ⟨factions, held (List.mem_append_right _ (Option.mem_toList.mpr isHeld)), nonempty, rfl⟩
  | _ => cases refers

/-- A field can be written down if its data and the names of groups can. -/
theorem FieldOf.writable {data : Data} {field : Field} (isField : FieldOf groups data field) (writable : data.Writable)
    (named : ∀ name, field.groupName? = some name → isName name = true) : field.writable = true := by
  have whole (formed : field.wellFormed = true) (noNumbers : field.numbers = []) : field.writable = true := by
    rw [Field.writable, formed, noNumbers]
    rfl
  cases isField with
  | weight held => exact whole (decide_eq_true (writable.weight _ held)) rfl
  | zones held nonempty =>
      refine whole (Bool.and_eq_true_iff.mpr ⟨?_, List.all_eq_true.mpr (writable.zones _ held)⟩) rfl
      simpa using nonempty
  | offers nonempty =>
      refine whole (Bool.and_eq_true_iff.mpr ⟨?_, List.all_eq_true.mpr writable.offers⟩) rfl
      simpa using nonempty
  | offerGroup held nonempty => exact whole (named _ rfl) rfl
  | hostileGroup held nonempty => exact whole (named _ rfl) rfl
  | reward held => exact whole (writable.reward _ held) rfl
  | failure held => exact whole (writable.failure _ held) rfl
  | objective held => exact whole (writable.objectives _ held) rfl
  | difficulty held => exact writable.difficulty _ held
  | comm held => exact writable.comms _ held

/-! ## Statements that can be written down -/

namespace Plan.Describes

/-- The name of the group for factions that a node holds is that of a declared group. -/
theorem exists_group (describes : plan.Describes graph) {factions : Factions} (held : Holds graph factions)
    (nonempty : factions.isEmpty = false) : ∃ group ∈ plan.groups, groupName plan.groups factions = group.name := by
  rw [describes.groups]
  obtain ⟨group, member, same, _⟩ := Outline.exists_group held nonempty
  exact ⟨group, member, same⟩

theorem isName_groupName (describes : plan.Describes graph) {factions : Factions} (held : Holds graph factions)
    (nonempty : factions.isEmpty = false) : isName (groupName plan.groups factions) = true := by
  obtain ⟨group, member, same⟩ := describes.exists_group held nonempty
  rw [describes.groups] at member
  exact same ▸ isName_of_mem_groups member

theorem tested_wellFormed (describes : plan.Describes graph)
    (writable : ∀ id node, graph.get? id = some node → node.content.Writable) {condition : Condition}
    (tested : Tested graph plan.groups condition) : condition.wellFormed = true := by
  cases tested with
  | named found => exact writable _ _ found
  | group held nonempty => exact describes.isName_groupName held nonempty

theorem isName_subName (id : NodeId) : isName (subName id) = true :=
  isName_append_repr (by decide) id

/-- What a node says can be written down if all nodes can. -/
theorem writable_spoken (describes : plan.Describes graph)
    (writable : ∀ id node, graph.get? id = some node → node.content.Writable) {node : Node} {inGroupBlock : Bool}
    (found : plan.graph.get? id = some node) :
    ∀ statement ∈ plan.spoken id node inGroupBlock, statement.writable = true := by
  intro statement member
  rw [spoken] at member
  split at member
  · rename_i test
    obtain ⟨decisions, chain⟩ := describes.chain found test
    have placed := describes.places found
    rw [List.mem_singleton.mp member]
    exact chain.wellFormedBlocks describes.planned (fun _ tested => describes.tested_wellFormed writable tested)
      placed.length_eq.symm
  · rename_i plain
    have foundBefore := describes.get?_of_plain found (eq_false_of_ne_true plain)
    obtain ⟨content, children⟩ := node
    have formed := writable _ _ foundBefore
    rcases mem_ownStatements member with ⟨data, field, same, isField, rfl⟩ | ⟨data, same, rfl⟩ | ⟨text, same, rfl⟩
    · cases same
      have fieldOf := fieldOf_of_mem_fields isField
      refine fieldOf.writable formed fun name refers => ?_
      obtain ⟨factions, held, nonempty, rfl⟩ := fieldOf.groupName foundBefore refers
      exact describes.isName_groupName held nonempty
    · rfl
    · cases same
      exact formed

theorem writable_draw (describes : plan.Describes graph)
    (writable : ∀ id node, graph.get? id = some node → node.content.Writable) (id : NodeId) (inGroupBlock : Bool) :
    Writable (plan.draw id inGroupBlock).statements :=
  describes.forall_draw (fun child => isName_subName child)
    (fun _ _ _ found => describes.writable_spoken writable found) id inGroupBlock

end Plan.Describes

/-! ## The declarations of a script -/

section Declarations

open Script (bodiesOf declaredGroup? declaredSub? groupsOf mains scopeOf subsFrom)

theorem mains_append (first second : List (Statement Unit)) :
    mains (first ++ second) = mains first ++ mains second := by
  induction first with
  | nil => rfl
  | cons statement rest ih => cases statement <;> simp [mains, ih]

theorem groupsOf_append (first second : List (Statement Unit)) :
    groupsOf (first ++ second) = groupsOf first ++ groupsOf second := by
  induction first with
  | nil => rfl
  | cons statement rest ih => cases statement <;> simp [groupsOf, ih]

theorem subsFrom_append (start : NodeId) (first second : List (Statement Unit)) :
    subsFrom start (first ++ second) =
      subsFrom start first ++ subsFrom (start + (subsFrom start first).length) second := by
  induction first generalizing start with
  | nil => rfl
  | cons statement rest ih =>
      cases statement with
      | sub note name body => simp [subsFrom, ih, Nat.add_assoc, Nat.add_comm 1]
      | _ => simp [subsFrom, ih]

/-- Statements that declare nothing are left as they are. -/
theorem declarations_of_plain {statements : List (Statement Unit)}
    (plain : ∀ statement ∈ statements, statement.isDeclaration = false) :
    mains statements = statements ∧ groupsOf statements = [] ∧ ∀ first, subsFrom first statements = [] := by
  induction statements with
  | nil => exact ⟨rfl, rfl, fun _ => rfl⟩
  | cons statement rest ih =>
      obtain ⟨here, later⟩ := List.forall_mem_cons.mp plain
      obtain ⟨sameMains, noGroups, noSubs⟩ := ih later
      cases statement with
      | sub note name body => cases here
      | group note group => cases here
      | _ => simp [mains, groupsOf, subsFrom, sameMains, noGroups, noSubs]

theorem declarations_of_groups (groups : List Group) :
    mains (groups.map (Statement.group ())) = [] ∧
      groupsOf (groups.map (Statement.group ())) = groups.map (fun group => (group.name, ⟨group.factions⟩)) ∧
      ∀ first, subsFrom first (groups.map (Statement.group ())) = [] := by
  induction groups with
  | nil => exact ⟨rfl, rfl, fun _ => rfl⟩
  | cons group rest ih =>
      obtain ⟨noMains, sameGroups, noSubs⟩ := ih
      simp [mains, groupsOf, subsFrom, noMains, sameGroups, noSubs]

theorem declarations_of_subs (subs : List (NodeId × Outline)) (first : NodeId) :
    mains (subs.map fun (id, outline) => Statement.sub () (subName id) outline.statements) = [] ∧
      groupsOf (subs.map fun (id, outline) => Statement.sub () (subName id) outline.statements) = [] ∧
      subsFrom first (subs.map fun (id, outline) => Statement.sub () (subName id) outline.statements) =
        (subs.zipIdx first).map fun ((id, outline), number) => (number, subName id, outline.statements) := by
  induction subs generalizing first with
  | nil => exact ⟨rfl, rfl, rfl⟩
  | cons sub rest ih =>
      obtain ⟨noMains, noGroups, sameSubs⟩ := ih (first + 1)
      simp [mains, groupsOf, subsFrom, noMains, noGroups, sameSubs]

namespace Draft

theorem plain_main (describes : plan.Describes graph) :
    ∀ statement ∈ (ofPlan plan).main.statements, statement.isDeclaration = false :=
  fun statement member => describes.undeclaring_draw Graph.entry false statement (Script.mem_walkBody_of_mem member)

/-- The statements behind the entry are those of the main outline. -/
theorem mains_script (describes : plan.Describes graph) :
    mains (ofPlan plan).script = (ofPlan plan).main.statements := by
  rw [script, mains_append, mains_append, (declarations_of_groups _).1,
    (declarations_of_plain (plain_main describes)).1, (declarations_of_subs _ 0).1, List.nil_append, List.append_nil]

theorem groupsOf_script (describes : plan.Describes graph) :
    groupsOf (ofPlan plan).script = plan.groups.map fun group => (group.name, ⟨group.factions⟩) := by
  rw [script, groupsOf_append, groupsOf_append, (declarations_of_groups _).2.1,
    (declarations_of_plain (plain_main describes)).2.1, (declarations_of_subs _ 0).2.1, List.append_nil,
    List.append_nil]
  rfl

/-- The subs are numbered in the order in which they are written. -/
theorem subsOf_script (describes : plan.Describes graph) :
    Script.subsOf (ofPlan plan).script = ((ofPlan plan).subs.zipIdx (Graph.entry + 1)).map
      fun ((id, outline), number) => (number, subName id, outline.statements) := by
  rw [Script.subsOf, script, subsFrom_append, subsFrom_append, (declarations_of_groups _).2.2,
    (declarations_of_plain (plain_main describes)).2.2, List.append_nil, List.nil_append, List.length_nil, Nat.add_zero,
    (declarations_of_subs _ _).2.2]

/-- The bodies of a script are the outlines of the entry and of the subs. -/
theorem outline_of_mem_bodiesOf (describes : plan.Describes graph) {root : NodeId} {body : List (Statement Unit)}
    (member : (root, body) ∈ bodiesOf (ofPlan plan).script) :
    ∃ id ∈ (ofPlan plan).roots, body = (plan.draw id false).statements := by
  rw [bodiesOf, mains_script describes, subsOf_script describes] at member
  rcases List.mem_cons.mp member with same | isSub
  · cases same
    exact ⟨Graph.entry, List.mem_cons_self, rfl⟩
  · simp only [List.map_map, List.mem_map, Prod.exists] at isSub
    obtain ⟨id, outline, number, listed, same⟩ := isSub
    cases same
    have isSub := List.fst_mem_of_mem_zipIdx listed
    refine ⟨id, List.mem_cons_of_mem _ (List.mem_map_of_mem isSub), ?_⟩
    rw [(subsOf plan).outline id outline isSub]

/-- A script declares the groups of its plan. -/
theorem declaredGroups_script (describes : plan.Describes graph) :
    (ofPlan plan).script.filterMap declaredGroup? = plan.groups.map Group.name := by
  rw [← Script.map_fst_groupsOf, groupsOf_script describes, List.map_map]
  rfl

/-- A script declares a sub for each node that it calls. -/
theorem declaredSubs_script (describes : plan.Describes graph) :
    (ofPlan plan).script.filterMap declaredSub? = (ofPlan plan).subs.map fun sub => subName sub.1 := by
  rw [← Script.map_name_subsFrom (Graph.entry + 1)]
  show (Script.subsOf _).map _ = _
  rw [subsOf_script describes, List.map_map]
  show List.map ((fun sub : NodeId × Outline => subName sub.1) ∘ Prod.fst) _ = _
  rw [← List.map_map, List.zipIdx_map_fst]

theorem isName_of_holds (writable : ∀ id node, graph.get? id = some node → node.content.Writable)
    {factions : Factions} (held : Holds graph factions) : ∀ name ∈ factions.names, isName name = true := by
  obtain ⟨id, ⟨content, children⟩, found, member⟩ := held
  have formed := writable _ _ found
  cases content with
  | data data =>
      rcases List.mem_append.mp member with isOffer | isHostile
      · exact formed.offerGroup factions (Option.mem_toList.mp isOffer)
      · exact formed.hostileGroup factions (Option.mem_toList.mp isHostile)
  | _ => cases member

/-- All statements of a script can be written down if the nodes can. -/
theorem writable_script (describes : plan.Describes graph)
    (writable : ∀ id node, graph.get? id = some node → node.content.Writable) : Writable (ofPlan plan).script := by
  intro statement member
  rw [script, walkBody_append, walkBody_append, walkBody_map, walkBody_map] at member
  rcases List.mem_append.mp member with isFront | inSubs
  · rcases List.mem_append.mp isFront with inGroups | inMain
    · obtain ⟨group, isGroup, inside⟩ := List.mem_flatMap.mp inGroups
      have isListed : group ∈ Outline.groups graph := describes.groups ▸ isGroup
      obtain ⟨held, nonempty⟩ := holds_of_mem_groups isListed
      rw [List.mem_singleton.mp inside]
      refine Bool.and_eq_true_iff.mpr ⟨Bool.and_eq_true_iff.mpr ⟨isName_of_mem_groups isListed, ?_⟩,
        List.all_eq_true.mpr (isName_of_holds writable held)⟩
      simpa using nonempty
    · exact describes.writable_draw writable Graph.entry false statement inMain
  · obtain ⟨⟨id, outline⟩, isSub, inside⟩ := List.mem_flatMap.mp inSubs
    rcases List.mem_cons.mp inside with rfl | inBody
    · exact Plan.Describes.isName_subName id
    · rw [(subsOf plan).outline id outline isSub] at inBody
      exact describes.writable_draw writable id false statement inBody

/-- No declaration of a script is inside another statement. -/
theorem flat_script (describes : plan.Describes graph) : Script.Flat (ofPlan plan).script := by
  intro statement member inner inside
  rw [script] at member
  rcases List.mem_append.mp member with isFront | inSubs
  · rcases List.mem_append.mp isFront with inGroups | inMain
    · obtain ⟨group, _, rfl⟩ := List.mem_map.mp inGroups
      cases inside
    · refine describes.undeclaring_draw Graph.entry false inner ?_
      have walked := walkBody_map (ofPlan plan).main.statements id
      rw [List.map_id] at walked
      show inner ∈ Statement.walkBody (ofPlan plan).main.statements
      rw [walked]
      exact List.mem_flatMap.mpr ⟨statement, inMain, List.mem_of_mem_tail inside⟩
  · obtain ⟨⟨id, outline⟩, isSub, rfl⟩ := List.mem_map.mp inSubs
    have inBody : inner ∈ Statement.walkBody outline.statements := inside
    rw [(subsOf plan).outline id outline isSub] at inBody
    exact describes.undeclaring_draw id false inner inBody

end Draft

end Declarations

/-! ## Statements that can be built -/

theorem buildable_own {content : Content} {inGroupBlock : Bool} {rest : List (Statement Unit)}
    (known : ∀ data field, content = .data data → field ∈ plan.fields data inGroupBlock →
      ∃ factions, Builder.factionsFor? scope.groups field = some factions) (later : Buildable scope rest) :
    Buildable scope (plan.ownStatements content inGroupBlock ++ rest) := by
  have each (statements : List (Statement Unit))
      (all : ∀ statement ∈ statements, statement ∈ plan.ownStatements content inGroupBlock) :
      Buildable scope (statements ++ rest) := by
    induction statements with
    | nil => exact later
    | cons statement others ih =>
        have laterOthers := ih fun other member => all other (List.mem_cons_of_mem _ member)
        rcases mem_ownStatements (all statement List.mem_cons_self) with
          ⟨data, field, same, isField, rfl⟩ | ⟨_, _, rfl⟩ | ⟨_, _, rfl⟩
        · obtain ⟨factions, isKnown⟩ := known data field same isField
          exact .field isKnown laterOthers
        · exact .unimplemented laterOthers
        · exact .doc laterOthers
  exact each _ fun _ member => member

theorem buildable_calls {children : List NodeId} {rest : List (Statement Unit)}
    (known : ∀ child ∈ children, ∃ target, scope.subs.lookup (subName child) = some target)
    (later : Buildable scope rest) :
    Buildable scope (allStatements (children.map .call) ++ rest) := by
  induction children with
  | nil => exact later
  | cons child others ih =>
      obtain ⟨target, isKnown⟩ := known child List.mem_cons_self
      exact .call isKnown (ih fun other member => known other (List.mem_cons_of_mem _ member))

theorem buildable_blocks {conditions : List Condition} {outlines : List Outline}
    (resolved : ∀ condition ∈ conditions, (asTest condition).Resolved scope)
    (few : outlines.length ≤ conditions.length + 1)
    (inner : ∀ outline ∈ outlines, Buildable scope outline.statements) :
    BuildableBlocks scope (blocks conditions outlines) := by
  induction outlines generalizing conditions with
  | nil =>
      rw [blocks]
      exact .nil
  | cons outline rest ih =>
      obtain ⟨innerFirst, innerRest⟩ := List.forall_mem_cons.mp inner
      cases conditions with
      | nil =>
          cases List.eq_nil_of_length_eq_zero (Nat.le_zero.mp (Nat.le_of_succ_le_succ few))
          rw [blocks, blocks]
          exact .cons (fun nonempty => absurd rfl nonempty) trivial innerFirst .nil
      | cons condition others =>
          obtain ⟨resolvedFirst, resolvedRest⟩ := List.forall_mem_cons.mp resolved
          rw [blocks]
          refine .cons (fun _ => ?_) resolvedFirst innerFirst (ih resolvedRest (Nat.le_of_succ_le_succ few) innerRest)
          cases condition <;> exact Condition.noConfusion

/-- The scope knows the groups of the plan and the subs for the numbers. -/
structure Knows (plan : Plan) (scope : Scope) (called : List NodeId) : Prop where
  groups : ∀ group ∈ plan.groups, ∃ factions, scope.groups.lookup group.name = some factions
  subs : ∀ id ∈ called, ∃ target, scope.subs.lookup (subName id) = some target

theorem length_blocks (conditions : List Condition) (outlines : List Outline) :
    (blocks conditions outlines).length = outlines.length := by
  induction outlines generalizing conditions with
  | nil => rw [blocks]; rfl
  | cons outline rest ih => cases conditions <;> rw [blocks, List.length_cons, ih, List.length_cons]

namespace Plan.Describes

variable {called : List NodeId}

/-- The name of the group for factions that a node holds is known. -/
theorem known_group (describes : plan.Describes graph) (knows : Knows plan scope called) {factions : Factions}
    (held : Holds graph factions) (nonempty : factions.isEmpty = false) :
    ∃ known, scope.groups.lookup (groupName plan.groups factions) = some known := by
  obtain ⟨group, member, same⟩ := describes.exists_group held nonempty
  rw [same]
  exact knows.groups group member

theorem resolved_of_tested (describes : plan.Describes graph) (knows : Knows plan scope called) {condition : Condition}
    (tested : Tested graph plan.groups condition) : (asTest condition).Resolved scope := by
  cases tested with
  | named found => trivial
  | group held nonempty => exact describes.known_group knows held nonempty

theorem known_field (describes : plan.Describes graph) (knows : Knows plan scope called) {node : Node} {data : Data}
    {field : Field} {inGroupBlock : Bool} (found : graph.get? id = some node) (isData : node.content = .data data)
    (isField : field ∈ plan.fields data inGroupBlock) :
    ∃ factions, Builder.factionsFor? scope.groups field = some factions := by
  obtain ⟨content, children⟩ := node
  cases isData
  unfold Builder.factionsFor?
  split
  · rename_i name refers
    obtain ⟨factions, held, nonempty, rfl⟩ := (fieldOf_of_mem_fields isField).groupName found refers
    exact describes.known_group knows held nonempty
  · exact ⟨_, rfl⟩

end Plan.Describes

/-- The statements of an outline can be built in a scope that knows its groups and calls. -/
theorem Plan.Describes.buildable_draw (describes : plan.Describes graph)
    (stored : ∃ node, plan.graph.get? id = some node) (inGroupBlock : Bool)
    (knows : Knows plan scope (plan.draw id inGroupBlock).calls) :
    Buildable scope (plan.draw id inGroupBlock).statements := by
  induction id using describes.acyclic.induction generalizing inGroupBlock with
  | step id ih =>
      obtain ⟨node, found⟩ := stored
      have placed := describes.places found
      have each : ∀ outline ∈ plan.outlinesBelow id node, Buildable scope outline.statements := by
        intro outline member
        have knowsBelow : ∀ key ∈ outline.calls, key ∈ (plan.draw id inGroupBlock).calls := by
          intro key called
          rw [describes.calls_draw found]
          exact List.mem_flatMap.mpr ⟨outline, member, called⟩
        obtain ⟨child, isChild, places⟩ := exists_of_places placed member
        have edge := Graph.child_of_get? found isChild
        cases places with
        | call =>
            obtain ⟨target, known⟩ := knows.subs child (knowsBelow child List.mem_cons_self)
            exact .call known .nil
        | inline _ flag =>
            refine ih child edge (describes.joined.closed id child edge) flag ⟨knows.groups, fun key called => ?_⟩
            exact knows.subs key (knowsBelow key called)
      rw [describes.draw_eq found]
      split
      · rename_i test
        obtain ⟨decisions, chain⟩ := describes.chain found test
        obtain ⟨several, _, few⟩ := chain.lengths
        refine .choice ?_ (buildable_blocks (fun condition member => ?_) ?_ each)
        · rw [length_blocks, ← placed.length_eq]
          exact several
        · exact describes.resolved_of_tested knows (chain.tested describes.planned condition member)
        · rw [← placed.length_eq]
          exact few
      · rename_i plain
        rw [statements]
        refine buildable_own (fun data field same isField => ?_) ?_
        · exact describes.known_field knows (describes.get?_of_plain found (eq_false_of_ne_true plain)) same isField
        · have below : plan.outlinesBelow id node =
              node.children.dropLast.map .call ++ node.children.getLast?.toList.map (plan.follow node) := if_neg plain
          have calledFirst (child : NodeId) (member : child ∈ node.children.dropLast) :
              child ∈ (plan.draw id inGroupBlock).calls := by
            rw [describes.calls_draw found, below]
            refine List.mem_flatMap.mpr ⟨.call child, List.mem_append_left _ (List.mem_map_of_mem member), ?_⟩
            exact List.mem_cons_self
          rw [below] at each ⊢
          rw [allStatements_eq, List.flatMap_append, ← allStatements_eq]
          refine buildable_calls (fun child member => knows.subs child (calledFirst child member)) ?_
          cases isLast : node.children.getLast? with
          | none => exact .nil
          | some last =>
              rw [isLast] at each
              have buildable := each (plan.follow node last) (List.mem_append_right _ List.mem_cons_self)
              rwa [Option.toList_some, List.map_singleton, List.flatMap_singleton]

end MissionGraph.Outline
