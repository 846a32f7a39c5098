import MissionGraph.Proofs.Build.Notes
import MissionGraph.Proofs.Outline.Statements
import MissionGraph.Proofs.Script.Recognition

/-!
# Written scripts compile

The text of a draft spells its script, which is therefore read back. The script passes all checks: it
declares no name twice, refers only to what it declares, and calls lead downwards in the graph. Since all its
bodies can be built, it is compiled.
-/

namespace MissionGraph

open Mission (Factions)
open Relation
open Script (Closes Group Program Statement Writable bodiesOf bodyWords declaredGroup? declaredSub? eraseBody
  scopeOf)

namespace Outline

variable {plan : Plan} {graph : Graph}

/-! ## The text of a draft -/

theorem bodyWords_append (first second : List (Statement Unit)) :
    bodyWords (first ++ second) = bodyWords first ++ bodyWords second := by
  induction first with
  | nil => rfl
  | cons statement rest ih => rw [List.cons_append, bodyWords, bodyWords, ih, List.append_assoc]

namespace Draft

variable {draft : Draft}

theorem written_blank : Script.Written [⟨0, ""⟩] [] :=
  Script.written_line 0 Script.closes_empty.spells

theorem written_groups {groups : List Group} (writable : Writable (groups.map (Statement.group ()))) :
    Script.Written (groups.map fun group => ⟨0, group.text⟩) (bodyWords (groups.map (Statement.group ()))) := by
  have lines : Statement.bodyLines (groups.map (Statement.group ())) = groups.map fun group => ⟨0, group.text⟩ := by
    induction groups with
    | nil => rfl
    | cons group rest ih =>
        rw [List.map_cons, Statement.bodyLines, ih (Script.writable_cons_iff.mp writable).2]
        rfl
  exact lines ▸ Script.written_body writable

theorem written_subs {subs : List (NodeId × Outline)}
    (writable : Writable (subs.map fun (id, outline) => Statement.sub () (subName id) outline.statements)) :
    Script.Written (subs.flatMap fun (id, outline) =>
        ⟨0, ""⟩ :: (Statement.sub () (subName id) outline.statements).lines)
      (bodyWords (subs.map fun (id, outline) => Statement.sub () (subName id) outline.statements)) := by
  induction subs with
  | nil => exact .nil
  | cons sub rest ih =>
      obtain ⟨first, later⟩ := Script.writable_cons_iff.mp writable
      exact (written_blank.append (Script.written_statement first)).append (ih later)

/-- The title is a comment. -/
theorem closes_title (width : Nat) : Closes (Text.Line.render width ⟨0, "# Vignette Info Script"⟩) [] := by
  have rendered : Text.Line.render width ⟨0, "# Vignette Info Script"⟩ = "# Vignette Info Script\n" := by
    rw [Text.Line.render, Text.Writer.margin, Nat.mul_zero]
    rfl
  rw [rendered]
  refine Script.Skipped.closes _ ?_
  have comment : Script.Skipped ('#' :: " Vignette Info Script".toList ++ ['\n']) := Script.skipped_comment (by decide)
  exact comment

theorem writable_append_iff {first second : List (Statement Unit)} :
    Writable (first ++ second) ↔ Writable first ∧ Writable second := by
  rw [Writable, walkBody_append, List.forall_mem_append]
  rfl

/-- The text of a draft spells its script, at every width. -/
theorem scans_text (writable : Writable draft.script) (width : Nat) :
    Script.Scans (draft.text width).toList (bodyWords draft.script) := by
  obtain ⟨front, subs⟩ := writable_append_iff.mp writable
  obtain ⟨groups, main⟩ := writable_append_iff.mp front
  have written := (((written_blank.append (written_groups groups)).append written_blank).append
    (Script.written_body main)).append (written_subs subs)
  have closes := (closes_title width).append (written.closes width)
  have spelled := closes [] [] Script.scans_nil
  rw [List.append_nil, List.append_nil] at spelled
  rw [text, Text.renderLines_eq_join, script, bodyWords_append, bodyWords_append]
  simpa [lines] using spelled

/-! ## What a script declares -/

/-- The name of a group stands for its factions. -/
theorem lookup_group (describes : plan.Describes graph) {group : Group} (member : group ∈ plan.groups) :
    (scopeOf (ofPlan plan).script).groups.lookup group.name = some ⟨group.factions⟩ := by
  refine Script.lookup_reverse_of_mem ?_ ?_
  · rw [Script.map_fst_groupsOf, declaredGroups_script describes, describes.groups]
    exact nodup_groups graph
  · rw [groupsOf_script describes]
    exact List.mem_map.mpr ⟨group, member, rfl⟩

/-- The name of a sub stands for the number that it gets in the order of the subs. -/
theorem lookup_sub (describes : plan.Describes graph) {index : Nat} {id : NodeId} {outline : Outline}
    (listed : (ofPlan plan).subs[index]? = some (id, outline)) :
    (scopeOf (ofPlan plan).script).subs.lookup (subName id) = some (Graph.entry + 1 + index) := by
  refine Script.lookup_reverse_of_mem ?_ ?_
  · have names := Script.map_name_subsFrom (Graph.entry + 1) (ofPlan plan).script
    rw [List.map_map]
    exact names.symm ▸ declaredSubs_script describes ▸ nodup_subNames plan
  · rw [subsOf_script describes, List.map_map]
    refine List.mem_map.mpr ⟨((id, outline), Graph.entry + 1 + index), ?_, rfl⟩
    rw [List.mem_zipIdx_iff_le_and_getElem?_sub]
    exact ⟨Nat.le_add_right _ _, by rw [Nat.add_sub_cancel_left]; exact listed⟩

theorem knows_script (describes : plan.Describes graph) :
    Knows plan (scopeOf (ofPlan plan).script) (ofPlan plan).calls where
  groups := fun _ member => ⟨_, lookup_group describes member⟩
  subs := by
    intro id isCalled
    obtain ⟨⟨_, outline⟩, isSub, rfl⟩ := List.mem_map.mp ((mem_subs_iff describes).mpr isCalled)
    obtain ⟨index, listed⟩ := List.mem_iff_getElem?.mp isSub
    exact ⟨_, lookup_sub describes listed⟩

/-- All bodies of a script can be built. -/
theorem buildable_script (describes : plan.Describes graph) (root : NodeId) {body : List (Statement Unit)}
    (member : (root, body) ∈ bodiesOf (ofPlan plan).script) : Buildable (scopeOf (ofPlan plan).script) body := by
  obtain ⟨id, isRoot, rfl⟩ := outline_of_mem_bodiesOf describes member
  have knows := knows_script describes
  refine describes.buildable_draw (stored_of_mem_roots describes isRoot) false ⟨knows.groups, fun key called => ?_⟩
  refine knows.subs key ?_
  rw [calls_eq]
  exact List.mem_flatMap.mpr ⟨id, isRoot, called⟩

/-! ## Reading the script again -/

variable {program : Program}

/-- Calls lead downwards in the graph. -/
theorem below_of_calls (describes : plan.Describes graph) (same : eraseBody program = (ofPlan plan).script)
    {caller called : String} (calls : Script.Calls program caller called) :
    ∃ id key, caller = subName id ∧ called = subName key ∧ TransGen plan.graph.Child id key := by
  obtain ⟨pos, body, place, declared, inside⟩ := calls
  have listed : Statement.sub () caller (eraseBody body) ∈ (ofPlan plan).script := by
    rw [← same, Script.map_eraseBody]
    exact List.mem_map.mpr ⟨_, declared, rfl⟩
  have isCall : Statement.call () called ∈ Statement.walkBody (eraseBody body) := by
    rw [Script.walkBody_erase]
    exact List.mem_map.mpr ⟨_, inside, rfl⟩
  rw [script] at listed
  rcases List.mem_append.mp listed with isFront | inSubs
  · rcases List.mem_append.mp isFront with inGroups | inMain
    · obtain ⟨group, _, impossible⟩ := List.mem_map.mp inGroups
      cases impossible
    · cases plain_main describes _ inMain
  · obtain ⟨⟨id, outline⟩, isSub, sameSub⟩ := List.mem_map.mp inSubs
    obtain ⟨sameName, sameBody⟩ := (Statement.sub.inj sameSub).2
    rw [← sameBody, (subsOf plan).outline id outline isSub] at isCall
    have listedCall : called ∈ (plan.draw id false).calls.map subName := by
      rw [← (describes.calls_statements id false).1]
      exact List.mem_filterMap.mpr ⟨_, isCall, rfl⟩
    obtain ⟨key, isCalled, rfl⟩ := List.mem_map.mp listedCall
    exact ⟨id, key, sameName.symm, rfl, (describes.mem_draw id false).1 key isCalled⟩

/-- No sub of a script calls itself, since no node is below itself. -/
theorem acyclic_calls (describes : plan.Describes graph) (same : eraseBody program = (ofPlan plan).script)
    (name : String) : ¬ TransGen (Script.Calls program) name name := by
  have path {caller called : String} (calls : TransGen (Script.Calls program) caller called) :
      ∃ id key, caller = subName id ∧ called = subName key ∧ TransGen plan.graph.Child id key := by
    induction calls with
    | single call => exact below_of_calls describes same call
    | tail _ call ih =>
        obtain ⟨id, key, isCaller, isMiddle, down⟩ := ih
        obtain ⟨next, last, isNext, isCalled, further⟩ := below_of_calls describes same call
        cases subName_injective (isMiddle.symm.trans isNext)
        exact ⟨id, last, isCaller, isCalled, down.trans further⟩
  intro circle
  obtain ⟨id, key, isCaller, isCalled, down⟩ := path circle
  cases subName_injective (isCaller.symm.trans isCalled)
  exact describes.acyclic id down

/-- The text of a draft is read as its script, which passes the checks and can be built. -/
theorem exists_rawGraph (describes : plan.Describes graph)
    (writable : ∀ id node, graph.get? id = some node → node.content.Writable) (width : Nat) :
    ∃ program warnings raw, Script.parse ((ofPlan plan).text width) = .ok program ∧
      eraseBody program = (ofPlan plan).script ∧ Script.check program = .ok warnings ∧
      Builder.rawGraph program = .ok raw := by
  have formed := writable_script describes writable
  obtain ⟨program, parsed, same⟩ := Script.exists_parse formed (flat_script describes) (scans_text formed width)
  have groups : (program.filterMap declaredGroup?).Nodup := by
    rw [← Script.declaredGroups_erase, same, declaredGroups_script describes, describes.groups]
    exact nodup_groups graph
  have subs : (program.filterMap declaredSub?).Nodup := by
    rw [← Script.declaredSubs_erase, same, declaredSubs_script describes]
    exact nodup_subNames plan
  have buildable (root : NodeId) (body : List (Statement Script.Pos)) (member : (root, body) ∈ bodiesOf program) :
      Buildable (scopeOf program) body := by
    refine buildable_of_erase ?_
    rw [← Script.scopeOf_erase, same]
    refine buildable_script describes root ?_
    rw [← same, Script.bodiesOf_erase]
    exact List.mem_map.mpr ⟨_, member, rfl⟩
  obtain ⟨warnings, checked⟩ := Script.exists_check_eq_ok_iff.mpr
    ⟨Script.checkDeclarations_eq_ok_iff.mpr ⟨groups, subs⟩, Script.checkReferences_of_buildable buildable,
      Script.checkRecursion_of_acyclic subs (acyclic_calls describes same)⟩
  obtain ⟨raw, built⟩ := Builder.exists_rawGraph groups subs buildable
  exact ⟨program, warnings, raw, parsed, same, checked, built⟩

end Draft

end Outline

open Outline (Draft Plan)

/-- A script that is written for records is always compiled, also if the records come from elsewhere: it is
enough that their values are plain and that no decision has the nickname `group`. -/
theorem compile_decompile {records : List Record} {loaded : Graph} (loads : Graph.ofRecords records = .ok loaded)
    (plain : ∀ record ∈ records, record.Plain)
    (notGroup : ∀ id children, loaded.get? id ≠ some ⟨.decision "group", children⟩) {width : Nat} {text : String}
    (success : Outline.decompile records width = .ok text) : ∃ graph, (compile text).result = .ok graph := by
  rw [Outline.decompile, loads, Success.ok_bind] at success
  obtain ⟨plan, planned, rfl⟩ := Success.map_eq_ok_iff.mp success
  have proper := Graph.proper_of_ofRecords loads
  have describes := Outline.describes_of_ofGraph proper (Graph.plain_of_ofRecords loads) planned
  have writable (id : NodeId) (node : Node) (found : loaded.simplify.get? id = some node) : node.content.Writable := by
    obtain ⟨key, before, foundBefore, same⟩ := Graph.exists_content_of_simplify proper found
    exact same ▸ Graph.writable_of_ofRecords loads plain notGroup foundBefore
  obtain ⟨program, warnings, raw, parsed, _, checked, built⟩ := Draft.exists_rawGraph describes writable width
  exact ⟨raw.simplify, compile_eq_ok_iff.mpr ⟨program, warnings, raw, parsed, checked, built, rfl⟩⟩

/-- Records as they may come from elsewhere: a chain of decisions in no order, a node with fields of several
kinds and two children, and a node that is used three times. -/
def handEdited : List Record :=
  [⟨.decision, 2, [⟨"nickname", [.name "c"]⟩], [9, 5]⟩,
    ⟨.decision, 5, [⟨"nickname", [.name "Branch"]⟩], [7, 4]⟩,
    ⟨.decision, 4, [⟨"nickname", [.name "d"]⟩], [9, 3]⟩,
    ⟨.data, 7, [⟨"offer_group", [.name "a", .name "b"]⟩, ⟨"weight", [.int 3]⟩, ⟨"reward_text", [.int 5, .name "x"]⟩,
      ⟨"objective_text", [.bool true, .int 1]⟩, ⟨"hostile_group", [.name "a"]⟩], [9, 8]⟩,
    ⟨.documentation, 3, [⟨"documentation", [.name "three"]⟩], []⟩,
    ⟨.data, 8, [⟨"allowable_zone_types", [.name "z"]⟩, ⟨"implemented", [.bool false]⟩], []⟩,
    ⟨.documentation, 9, [⟨"documentation", [.name "nine"]⟩], []⟩]

/-- The script for these records is compiled. -/
theorem compile_decompile_handEdited : ∃ text graph, Outline.decompile handEdited 2 = .ok text ∧
    (compile text).result = .ok graph := by
  have evaluated : (do
      let loaded ← (Graph.ofRecords handEdited).toOption
      let _ ← (Plan.ofGraph loaded).toOption
      return loaded.toList.all fun entry => decide (entry.2.content ≠ .decision "group")) = some true := by
    cbv
  obtain ⟨loaded, loads, evaluated⟩ := Success.exists_of_toOption_bind evaluated
  obtain ⟨plan, planned, evaluated⟩ := Success.exists_of_toOption_bind evaluated
  have success : Outline.decompile handEdited 2 = .ok ((Draft.ofPlan plan).text 2) :=
    Outline.decompile_eq_ok_iff.mpr ⟨loaded, plan, loads, planned, rfl⟩
  have notGroup (id : NodeId) (children : List NodeId) : loaded.get? id ≠ some ⟨.decision "group", children⟩ := by
    intro found
    have other := List.all_eq_true.mp (Option.some.inj evaluated) _ (Graph.mem_toList_iff.mpr found)
    exact of_decide_eq_true other rfl
  obtain ⟨graph, compiled⟩ := compile_decompile loads (by decide) notGroup success
  exact ⟨_, graph, success, compiled⟩

end MissionGraph
