import Mathlib
import MissionGraph.Proofs.Outline.Drafts
import MissionGraph.Proofs.Outline.Groups
import MissionGraph.Proofs.Record.Loading

/-!
# What a written script holds

Every outline of a draft shows its nodes: what they say by themselves, and their children in order, each of
them called or written right there. The calls and subs of the script are those of the outlines, among its
statements and among its lines.
-/

namespace MissionGraph

namespace Outline

open Script (Block Condition Statement declaredSub?)

/-! ## Outlines show nodes -/

mutual

/-- The outline shows the node at its top: its tests or what it says by itself, and one outline for each of
its children in order. -/
def Shows (plan : Plan) (inGroupBlock : Bool) : Outline → Prop
  | .missing _ => False
  | .reopened _ => False
  | .call _ => True
  | .choice id tests children => ∃ node, plan.graph.get? id = some node ∧ Plan.isTest node.content = true ∧
      tests = plan.testsAt id node.content ∧ children.map root = node.children ∧
      ShowAll plan (tests.map Condition.isGroup) children
  | .step id own children => ∃ node, plan.graph.get? id = some node ∧ Plan.isTest node.content = false ∧
      own = plan.ownStatements node.content inGroupBlock ∧ children.map root = node.children ∧
      ShowAll plan [] children

/-- All outlines show the nodes at their tops, and a node that is written here is used nowhere else. The
flags tell which of them are blocks of groups. -/
def ShowAll (plan : Plan) (flags : List Bool) : List Outline → Prop
  | [] => True
  | outline :: rest => (outline.written ≠ [] → plan.references.count outline.root ≤ 1) ∧
      Shows plan (flags.headD false) outline ∧ ShowAll plan flags.tail rest

end

namespace Plan

variable {plan : Plan} {graph : Graph} {id : NodeId}

/-- A placed child shows its node if its outline does. -/
theorem Places.shows {child : NodeId} {outline : Outline} (places : plan.Places child outline) :
    outline.written ≠ [] → plan.references.count outline.root ≤ 1 := by
  intro isWritten
  cases places with
  | call => exact absurd rfl isWritten
  | inline alone flag => rwa [root_draw]

theorem shows_block {child : NodeId} (inGroupBlock : Bool)
    (shows : (plan.draw child inGroupBlock).Shows plan inGroupBlock) :
    (plan.block child inGroupBlock).Shows plan inGroupBlock := by
  unfold block
  split
  · rw [Shows]
    trivial
  · exact shows

theorem showAll_blocks (tests : List Condition) (children : List NodeId)
    (shows : ∀ child ∈ children, ∀ flag, (plan.draw child flag).Shows plan flag) :
    ShowAll plan (tests.map Condition.isGroup)
      (List.zipWith (fun condition child => plan.block child condition.isGroup) tests children) := by
  induction children generalizing tests with
  | nil =>
      rw [List.zipWith_nil_right, ShowAll]
      trivial
  | cons child others ih =>
      cases tests with
      | nil =>
          rw [List.zipWith_nil_left, ShowAll]
          trivial
      | cons test rest =>
          rw [List.zipWith_cons_cons, ShowAll]
          refine ⟨(plan.places_block child _).shows, ?_, ?_⟩
          · exact shows_block _ (shows child List.mem_cons_self _)
          · exact ih rest fun other member => shows other (List.mem_cons_of_mem _ member)

/-- Outlines without a flag are no blocks of groups. -/
theorem showAll_append_false (outlines : List Outline) (flags : List Bool) :
    ShowAll plan (flags ++ [false]) outlines ↔ ShowAll plan flags outlines := by
  induction outlines generalizing flags with
  | nil => rw [ShowAll, ShowAll]
  | cons outline rest ih =>
      cases flags with
      | nil => rw [ShowAll, ShowAll]; rfl
      | cons flag others =>
          rw [List.cons_append, ShowAll, ShowAll, List.tail_cons, ih others]
          rfl

theorem shows_follow {parent : Node} {child : NodeId} (shows : (plan.draw child false).Shows plan false) :
    (plan.follow parent child).Shows plan false := by
  unfold follow
  split
  · exact shows
  · rw [Shows]
    trivial

theorem showAll_behind (node : Node) (shows : ∀ child ∈ node.children, (plan.draw child false).Shows plan false) :
    ShowAll plan [] (node.children.dropLast.map .call ++ node.children.getLast?.toList.map (plan.follow node)) := by
  have placed := plan.places_behind node
  have showsEach : ∀ outline ∈ node.children.dropLast.map .call ++
      node.children.getLast?.toList.map (plan.follow node), outline.Shows plan false := by
    intro outline member
    rcases List.mem_append.mp member with isCall | isLast
    · obtain ⟨child, _, rfl⟩ := List.mem_map.mp isCall
      rw [Shows]
      trivial
    · obtain ⟨child, isChild, rfl⟩ := List.mem_map.mp isLast
      exact shows_follow (shows child (List.mem_of_getLast? (Option.mem_toList.mp isChild)))
  generalize node.children.dropLast.map Outline.call ++ node.children.getLast?.toList.map (plan.follow node) = outlines
    at placed showsEach
  generalize node.children = children at placed
  induction placed with
  | nil =>
      rw [ShowAll]
      trivial
  | cons here _ ih =>
      rw [ShowAll]
      exact ⟨here.shows, showsEach _ List.mem_cons_self,
        ih fun outline member => showsEach outline (List.mem_cons_of_mem _ member)⟩

/-- The outline of a stored node shows it. -/
theorem Describes.shows_draw (describes : plan.Describes graph) (stored : ∃ node, plan.graph.get? id = some node)
    (inGroupBlock : Bool) : (plan.draw id inGroupBlock).Shows plan inGroupBlock := by
  induction id using describes.acyclic.induction generalizing inGroupBlock with
  | step id ih =>
      obtain ⟨node, found⟩ := stored
      have shows (child : NodeId) (member : child ∈ node.children) (flag : Bool) :
          (plan.draw child flag).Shows plan flag := by
        have edge := Graph.child_of_get? found member
        exact ih child edge (describes.joined.closed id child edge) flag
      have isRoot := map_root_of_places (describes.places found)
      rw [describes.draw_eq found]
      unfold outlinesBelow at isRoot ⊢
      cases test : isTest node.content with
      | true =>
          simp only [test, if_true] at isRoot ⊢
          rw [Shows]
          refine ⟨node, found, test, rfl, isRoot, ?_⟩
          rw [← showAll_append_false]
          have all := showAll_blocks (plan.testsAt id node.content ++ [.otherwise]) node.children shows
          rwa [List.map_append] at all
      | false =>
          simp only [test, Bool.false_eq_true, if_false] at isRoot ⊢
          rw [Shows]
          exact ⟨node, found, test, rfl, isRoot, showAll_behind node fun child member => shows child member false⟩

end Plan

/-! ## The statements of an outline -/

section Statements

/-- The name of the sub that a statement calls. -/
def called? : Statement Unit → Option String
  | .call _ name => some name
  | _ => none

theorem walkBody_append {α : Type} (first second : List (Statement α)) :
    Statement.walkBody (first ++ second) = Statement.walkBody first ++ Statement.walkBody second := by
  induction first with
  | nil => rfl
  | cons statement rest ih => rw [List.cons_append, Statement.walkBody, Statement.walkBody, ih, List.append_assoc]

theorem walkBody_flatMap {α β : Type} (values : List β) (read : β → List (Statement α)) :
    Statement.walkBody (values.flatMap read) = values.flatMap fun value => Statement.walkBody (read value) := by
  induction values with
  | nil => rfl
  | cons value others ih => rw [List.flatMap_cons, List.flatMap_cons, walkBody_append, ih]

theorem walkBlocks_blocks (tests : List Condition) (outlines : List Outline) :
    Statement.walkBlocks (blocks tests outlines) =
      outlines.flatMap fun outline => Statement.walkBody outline.statements := by
  induction outlines generalizing tests with
  | nil => rw [blocks]; rfl
  | cons outline rest ih =>
      cases tests with
      | nil => rw [blocks, Statement.walkBlocks, ih, List.flatMap_cons]
      | cons test others => rw [blocks, Statement.walkBlocks, ih, List.flatMap_cons]

variable {plan : Plan} {graph : Graph} {id : NodeId}

/-- What a data node says are its fields and perhaps that its mission is missing; a documentation node shows
its text. -/
theorem mem_ownStatements {content : Content} {inGroupBlock : Bool} {statement : Statement Unit}
    (member : statement ∈ plan.ownStatements content inGroupBlock) :
    (∃ data field, content = .data data ∧ field ∈ plan.fields data inGroupBlock ∧ statement = .field () field) ∨
      (∃ data, content = .data data ∧ statement = .unimplemented ()) ∨
      ∃ text, content = .documentation text ∧ statement = .doc () text := by
  cases content with
  | data data =>
      rcases List.mem_append.mp member with inFields | isMissing
      · obtain ⟨field, isField, rfl⟩ := List.mem_map.mp inFields
        exact .inl ⟨data, field, rfl, isField, rfl⟩
      · split at isMissing
        · cases isMissing
        · exact .inr (.inl ⟨data, rfl, List.mem_singleton.mp isMissing⟩)
  | documentation text => exact .inr (.inr ⟨text, rfl, List.mem_singleton.mp member⟩)
  | decision nickname => cases member
  | choice conditions => cases member

/-- There are no statements inside what a node says by itself. -/
theorem walkBody_ownStatements (plan : Plan) (content : Content) (inGroupBlock : Bool) :
    Statement.walkBody (plan.ownStatements content inGroupBlock) = plan.ownStatements content inGroupBlock := by
  have alone (statements : List (Statement Unit))
      (single : ∀ statement ∈ statements, statement.walk = [statement]) :
      Statement.walkBody statements = statements := by
    induction statements with
    | nil => rfl
    | cons head rest ih =>
        rw [Statement.walkBody, single head List.mem_cons_self,
          ih fun other listed => single other (List.mem_cons_of_mem _ listed)]
        rfl
  refine alone _ fun statement member => ?_
  rcases mem_ownStatements member with ⟨_, _, _, _, rfl⟩ | ⟨_, _, rfl⟩ | ⟨_, _, rfl⟩ <;> rfl

/-- The statements for a node itself, apart from those for its children. -/
def Plan.spoken (plan : Plan) (id : NodeId) (node : Node) (inGroupBlock : Bool) : List (Statement Unit) :=
  if isTest node.content then [.choice () (blocks (plan.testsAt id node.content) (plan.outlinesBelow id node))]
  else plan.ownStatements node.content inGroupBlock

/-- The statements of a stored node: those for itself, and those for its children. -/
theorem Plan.Describes.walk_draw (describes : plan.Describes graph) {node : Node}
    (found : plan.graph.get? id = some node) (inGroupBlock : Bool) :
    Statement.walkBody (plan.draw id inGroupBlock).statements = plan.spoken id node inGroupBlock ++
      (plan.outlinesBelow id node).flatMap fun outline => Statement.walkBody outline.statements := by
  rw [describes.draw_eq found, spoken]
  split
  · rw [statements, Statement.walkBody, Statement.walk, walkBlocks_blocks, Statement.walkBody, List.append_nil]
    rfl
  · rw [statements, allStatements_eq, walkBody_append, walkBody_flatMap, walkBody_ownStatements]

/-- A fact holds of all statements of an outline if it holds of calls and of what the nodes say. -/
theorem Plan.Describes.forall_draw (describes : plan.Describes graph) {holds : Statement Unit → Prop}
    (call : ∀ child, holds (.call () (subName child)))
    (own : ∀ id node inGroupBlock, plan.graph.get? id = some node →
      ∀ statement ∈ plan.spoken id node inGroupBlock, holds statement) (id : NodeId) (inGroupBlock : Bool) :
    ∀ statement ∈ Statement.walkBody (plan.draw id inGroupBlock).statements, holds statement := by
  induction id using describes.acyclic.induction generalizing inGroupBlock with
  | step id ih =>
      cases found : plan.graph.get? id with
      | none =>
          rw [draw, outline, found]
          exact fun _ member => absurd member List.not_mem_nil
      | some node =>
          rw [describes.walk_draw found]
          refine List.forall_mem_append.mpr ⟨own id node inGroupBlock found, fun statement member => ?_⟩
          obtain ⟨outline, isBelow, inside⟩ := List.mem_flatMap.mp member
          obtain ⟨child, isChild, places⟩ := exists_of_places (describes.places found) isBelow
          cases places with
          | call =>
              rw [List.mem_singleton.mp inside]
              exact call child
          | inline _ flag => exact ih child (Graph.child_of_get? found isChild) flag statement inside

/-- What a node says calls nothing and declares nothing. -/
theorem silent_spoken {node : Node} {inGroupBlock : Bool} :
    ∀ statement ∈ plan.spoken id node inGroupBlock,
      called? statement = none ∧ statement.isDeclaration = false := by
  intro statement member
  rw [Plan.spoken] at member
  split at member
  · rw [List.mem_singleton.mp member]
    exact ⟨rfl, rfl⟩
  · rcases mem_ownStatements member with ⟨_, _, _, _, rfl⟩ | ⟨_, _, rfl⟩ | ⟨_, _, rfl⟩ <;> exact ⟨rfl, rfl⟩

/-- There are no declarations in an outline. -/
theorem Plan.Describes.undeclaring_draw (describes : plan.Describes graph) (id : NodeId) (inGroupBlock : Bool) :
    Script.Undeclaring (plan.draw id inGroupBlock).statements :=
  describes.forall_draw (fun _ => rfl) (fun _ _ _ _ statement member => (silent_spoken statement member).2) id
    inGroupBlock

theorem declaredSub?_of_isDeclaration {statement : Statement Unit} (plain : statement.isDeclaration = false) :
    declaredSub? statement = none := by
  cases statement with
  | sub note name body => cases plain
  | _ => rfl

/-- The statements of an outline call what the outline calls, in order, and declare no subs. -/
theorem Plan.Describes.calls_statements (describes : plan.Describes graph) (id : NodeId) (inGroupBlock : Bool) :
    (Statement.walkBody (plan.draw id inGroupBlock).statements).filterMap called? =
        (plan.draw id inGroupBlock).calls.map subName ∧
      (Statement.walkBody (plan.draw id inGroupBlock).statements).filterMap declaredSub? = [] := by
  refine ⟨?_, List.filterMap_eq_nil_iff.mpr fun statement member =>
    declaredSub?_of_isDeclaration (describes.undeclaring_draw id inGroupBlock statement member)⟩
  induction id using describes.acyclic.induction generalizing inGroupBlock with
  | step id ih =>
      cases found : plan.graph.get? id with
      | none =>
          rw [draw, outline, found]
          rfl
      | some node =>
          rw [describes.walk_draw found, List.filterMap_append,
            List.filterMap_eq_nil_iff.mpr fun statement member => (silent_spoken statement member).1,
            List.filterMap_flatMap, describes.calls_draw found, List.map_flatMap, List.nil_append]
          refine List.flatMap_congr fun outline member => ?_
          obtain ⟨child, isChild, places⟩ := exists_of_places (describes.places found) member
          cases places with
          | call => rfl
          | inline _ flag => exact ih child (Graph.child_of_get? found isChild) flag

theorem walkBody_map {α β : Type} (values : List β) (read : β → Statement α) :
    Statement.walkBody (values.map read) = values.flatMap fun value => Statement.walk (read value) := by
  induction values with
  | nil => rfl
  | cons value others ih => rw [List.map_cons, Statement.walkBody, ih, List.flatMap_cons]

/-- The statements of a script call what the draft calls, in order, and declare its subs. -/
theorem Draft.calls_script (describes : plan.Describes graph) :
    (Statement.walkBody (ofPlan plan).script).filterMap called? = (ofPlan plan).calls.map subName ∧
      (Statement.walkBody (ofPlan plan).script).filterMap declaredSub? =
        (ofPlan plan).subs.map fun sub => subName sub.1 := by
  have main := describes.calls_statements Graph.entry false
  have ofSub (sub : NodeId × Outline) (member : sub ∈ (ofPlan plan).subs) :
      (Statement.walkBody sub.2.statements).filterMap called? = sub.2.calls.map subName ∧
        (Statement.walkBody sub.2.statements).filterMap declaredSub? = [] := by
    rw [(subsOf plan).outline sub.1 sub.2 member]
    exact describes.calls_statements sub.1 false
  have ofGroups (read : Statement Unit → Option String) (silent : ∀ group, read (.group () group) = none) :
      (Statement.walkBody ((ofPlan plan).groups.map (Statement.group ()))).filterMap read = [] := by
    rw [walkBody_map, List.filterMap_flatMap]
    refine List.flatMap_eq_nil_iff.mpr fun group _ => ?_
    rw [Statement.walk, List.filterMap_cons, silent group]
    · rfl
    · nofun
    · nofun
  rw [Draft.script, walkBody_append, walkBody_append, List.filterMap_append, List.filterMap_append,
    List.filterMap_append, List.filterMap_append, ofGroups called? fun _ => rfl,
    ofGroups declaredSub? fun _ => rfl, walkBody_map, List.filterMap_flatMap, List.filterMap_flatMap]
  have mainCalls : (Statement.walkBody (ofPlan plan).main.statements).filterMap called? =
      (ofPlan plan).main.calls.map subName := main.1
  have mainSubs : (Statement.walkBody (ofPlan plan).main.statements).filterMap declaredSub? = [] := main.2
  rw [mainCalls, mainSubs, List.nil_append, List.nil_append, List.nil_append]
  constructor
  · rw [Draft.calls, List.map_append, List.map_flatMap]
    exact congrArg _ (List.flatMap_congr fun sub member => (ofSub sub member).1)
  · rw [List.map_eq_flatMap]
    refine List.flatMap_congr fun sub member => ?_
    rw [Statement.walk, List.filterMap_cons, (ofSub sub member).2]
    rfl

theorem subName_injective {first second : NodeId} (same : subName first = subName second) : first = second :=
  append_repr_injective same

theorem Draft.nodup_subNames (plan : Plan) : ((ofPlan plan).subs.map fun sub => subName sub.1).Nodup := by
  have names : ((ofPlan plan).subs.map fun sub => subName sub.1) = ((ofPlan plan).subs.map Prod.fst).map subName := by
    rw [List.map_map]
    rfl
  rw [names]
  exact List.Pairwise.map subName (fun _ _ different same => different (subName_injective same))
    (subsOf plan).nodup

end Statements

/-! ## The lines of a script -/

section Lines

open Mission (Field Offer)
open Text (Line)

/-- What a line says after the mark that it starts with. -/
def after? (mark : String) (line : Line) : Option String :=
  if mark.toList.isPrefixOf line.text.toList then some (String.ofList (line.text.toList.drop mark.toList.length))
  else none

theorem after?_append (mark rest : String) (level : Nat) : after? mark ⟨level, mark ++ rest⟩ = some rest := by
  have starts : mark.toList.isPrefixOf (mark ++ rest).toList = true := by
    rw [List.isPrefixOf_iff_prefix, String.toList_append]
    exact List.prefix_append _ _
  rw [after?, if_pos starts, String.toList_append, List.drop_left, String.ofList_toList]

/-- Neither text starts with the other. -/
def Apart (first second : String) : Prop :=
  ¬ first.toList <+: second.toList ∧ ¬ second.toList <+: first.toList

instance (first second : String) : Decidable (Apart first second) :=
  inferInstanceAs (Decidable (_ ∧ _))

theorem after?_of_apart {mark first : String} (apart : Apart mark first) (rest : String) (level : Nat) :
    after? mark ⟨level, first ++ rest⟩ = none := by
  refine if_neg fun starts => ?_
  rw [List.isPrefixOf_iff_prefix, String.toList_append] at starts
  exact (List.prefix_or_prefix_of_prefix starts (List.prefix_append _ _)).elim apart.1 apart.2

/-- The marks of the lines that call a sub or declare one. -/
def marks : List String :=
  ["call ", "sub "]

/-- What all other lines start with, apart from empty ones. -/
def otherStarts : List String :=
  ["# Vignette Info Script", "group ", "if ", "elif ", "else", "end", "err_unimplemented;", "doc ", "offer_text (",
    "append", "replace", ");", "comm_sequence", "failure_text", "reward_text", "objective_text", "offer_text",
    "difficulty", "weight", "allowable_zone_types", "offer_group", "hostile_group"]

variable {mark : String}

theorem after?_of_otherStarts (known : mark ∈ marks) {first : String} (other : first ∈ otherStarts) (rest : String)
    (level : Nat) : after? mark ⟨level, first ++ rest⟩ = none := by
  have apart : ∀ mark ∈ marks, ∀ first ∈ otherStarts, Apart mark first := by decide
  exact after?_of_apart (apart mark known first other) rest level

/-- The same for a line that has nothing behind its start. -/
theorem after?_of_mem_otherStarts (known : mark ∈ marks) {text : String} (other : text ∈ otherStarts) (level : Nat) :
    after? mark ⟨level, text⟩ = none := by
  have whole := after?_of_otherStarts known other "" level
  rwa [String.append_empty] at whole

theorem after?_empty (known : mark ∈ marks) (level : Nat) : after? mark ⟨level, ""⟩ = none := by
  have longer : ∀ mark ∈ marks, mark.toList.isPrefixOf [] = false := by decide
  exact if_neg (ne_true_of_eq_false (longer mark known))

/-- The entries of an `offer_text` field start with their mode. -/
theorem exists_of_mem_offerLines {entries : List Offer} {text : String} (member : text ∈ Script.offerLines entries) :
    ∃ mode : Mission.OfferMode, ∃ rest, text = mode.word ++ rest := by
  fun_induction Script.offerLines entries with
  | case1 => cases member
  | case2 last =>
      rw [List.mem_singleton.mp member, Offer.text, String.append_assoc, String.append_assoc]
      exact ⟨last.mode, _, rfl⟩
  | case3 offer rest notLast ih =>
      rcases List.mem_cons.mp member with rfl | later
      · rw [Offer.text, String.append_assoc, String.append_assoc, String.append_assoc]
        exact ⟨offer.mode, _, rfl⟩
      · exact ih later

theorem after?_fieldLines (known : mark ∈ marks) (field : Field) :
    (Script.fieldLines field).filterMap (after? mark) = [] := by
  refine List.filterMap_eq_nil_iff.mpr ?_
  unfold Script.fieldLines
  split
  · refine List.forall_mem_append.mpr ⟨List.forall_mem_cons.mpr ⟨?_, fun line member => ?_⟩, ?_⟩
    · exact after?_of_mem_otherStarts known (by decide) 0
    · obtain ⟨text, listed, rfl⟩ := List.mem_map.mp member
      obtain ⟨mode, rest, rfl⟩ := exists_of_mem_offerLines listed
      exact after?_of_otherStarts known (by cases mode <;> decide) rest 1
    · exact List.forall_mem_singleton.mpr (after?_of_mem_otherStarts known (by decide) 0)
  · refine List.forall_mem_singleton.mpr ?_
    rw [Field.text, String.append_assoc, String.append_assoc]
    exact after?_of_otherStarts known (by cases field <;> simp [Field.keyword, otherStarts]) _ 0

theorem after?_blockHead (known : mark ∈ marks) (first : Bool) (condition : Condition) (level : Nat) :
    after? mark ⟨level, Script.blockHead first condition⟩ = none := by
  have tested (rest : String) : after? mark ⟨level, (if first then "if " else "elif ") ++ rest⟩ = none :=
    after?_of_otherStarts known (by cases first <;> decide) rest level
  cases condition with
  | named name => exact tested name
  | group name => exact tested _
  | otherwise => exact after?_of_mem_otherStarts known (by decide : "else" ∈ otherStarts) level

theorem filterMap_deeper (lines : List Line) :
    (lines.map Line.deeper).filterMap (after? mark) = lines.filterMap (after? mark) := by
  rw [List.filterMap_map]
  rfl

/-- What the line of a call or of the declaration of a sub says after the mark. -/
def said? (mark : String) : Statement Unit → Option String
  | .sub _ name _ => after? mark ⟨0, "sub " ++ name⟩
  | .call _ name => after? mark ⟨0, "call " ++ name ++ ";"⟩
  | _ => none

theorem said?_sub : said? "sub " = declaredSub? := by
  funext statement
  cases statement with
  | sub note name body => exact after?_append "sub " name 0
  | call note name =>
      rw [said?, String.append_assoc]
      exact after?_of_apart (by decide) _ 0
  | _ => rfl

theorem said?_call : said? "call " = fun statement => (called? statement).map (· ++ ";") := by
  funext statement
  cases statement with
  | sub note name body => exact after?_of_apart (by decide) name 0
  | call note name =>
      rw [said?, String.append_assoc]
      exact after?_append "call " (name ++ ";") 0
  | _ => rfl

mutual

/-- The lines of a statement that start with a mark are those of the calls and subs in it. -/
theorem filterMap_lines (known : mark ∈ marks) (statement : Statement Unit) :
    statement.lines.filterMap (after? mark) = statement.walk.filterMap (said? mark) := by
  have ended : [Line.mk 0 "end"].filterMap (after? mark) = [] :=
    List.filterMap_cons_none (after?_of_mem_otherStarts known (by decide) 0)
  match statement with
  | .sub note name body =>
      rw [Statement.lines, Statement.walk, List.filterMap_append, ended, List.append_nil, List.filterMap_cons,
        List.filterMap_cons, filterMap_deeper, filterMap_bodyLines known body]
      rfl
  | .group note declared =>
      refine List.filterMap_cons_none ?_
      rw [Script.Group.text, String.append_assoc, String.append_assoc, String.append_assoc]
      exact after?_of_otherStarts known (by decide) _ 0
  | .choice note blocks =>
      rw [Statement.lines, Statement.walk, List.filterMap_append, ended, List.append_nil, List.filterMap_cons,
        filterMap_blockLines known true blocks]
      rfl
  | .call note name => rfl
  | .unimplemented note => exact List.filterMap_cons_none (after?_of_mem_otherStarts known (by decide) 0)
  | .doc note name =>
      refine List.filterMap_cons_none ?_
      rw [String.append_assoc]
      exact after?_of_otherStarts known (by decide) _ 0
  | .field note value => exact after?_fieldLines known value

theorem filterMap_bodyLines (known : mark ∈ marks) (statements : List (Statement Unit)) :
    (Statement.bodyLines statements).filterMap (after? mark) =
      (Statement.walkBody statements).filterMap (said? mark) := by
  match statements with
  | [] => rfl
  | statement :: rest =>
      rw [Statement.bodyLines, Statement.walkBody, List.filterMap_append, List.filterMap_append,
        filterMap_lines known statement, filterMap_bodyLines known rest]

theorem filterMap_blockLines (known : mark ∈ marks) (first : Bool) (blocks : List (Block Unit)) :
    (Statement.blockLines first blocks).filterMap (after? mark) =
      (Statement.walkBlocks blocks).filterMap (said? mark) := by
  match blocks with
  | [] => rfl
  | .mk condition body :: rest =>
      rw [Statement.blockLines, Statement.walkBlocks, List.filterMap_append, List.filterMap_append, List.filterMap_cons,
        after?_blockHead known, filterMap_deeper, filterMap_bodyLines known body, filterMap_blockLines known false rest]

end

/-- The lines of a draft that start with a mark are those of the calls and subs of its script. -/
theorem Draft.filterMap_lines (known : mark ∈ marks) (draft : Draft) :
    draft.lines.filterMap (after? mark) = (Statement.walkBody draft.script).filterMap (said? mark) := by
  have blank : [Line.mk 0 ""].filterMap (after? mark) = [] := List.filterMap_cons_none (after?_empty known 0)
  have title : [Line.mk 0 "# Vignette Info Script", ⟨0, ""⟩].filterMap (after? mark) = [] := by
    refine List.filterMap_eq_nil_iff.mpr (List.forall_mem_cons.mpr ⟨?_, List.forall_mem_singleton.mpr ?_⟩)
    · exact after?_of_mem_otherStarts known (by decide) 0
    · exact after?_empty known 0
  have groups : (draft.groups.map fun group => Line.mk 0 group.text) =
      Statement.bodyLines (draft.groups.map (Statement.group ())) := by
    induction draft.groups with
    | nil => rfl
    | cons group rest ih =>
        rw [List.map_cons, List.map_cons, Statement.bodyLines, ih]
        rfl
  have subs : (draft.subs.flatMap fun sub => (⟨0, ""⟩ :: (Statement.sub () (subName sub.1) sub.2.statements).lines :
      List Line)).filterMap (after? mark) = (Statement.walkBody
        (draft.subs.map fun sub => .sub () (subName sub.1) sub.2.statements)).filterMap (said? mark) := by
    rw [List.filterMap_flatMap, walkBody_map, List.filterMap_flatMap]
    refine List.flatMap_congr fun sub _ => ?_
    rw [List.filterMap_cons, after?_empty known, Outline.filterMap_lines known]
  rw [lines, script, walkBody_append, walkBody_append, List.filterMap_append, List.filterMap_append,
    List.filterMap_append, List.filterMap_append, List.filterMap_append, List.filterMap_append, title, blank, groups,
    filterMap_bodyLines known, filterMap_bodyLines known, List.nil_append, List.append_nil]
  exact congrArg _ subs

/-- The lines that call a sub or declare one are those of the calls and of the subs. -/
theorem Draft.marked_lines {plan : Plan} {graph : Graph} (describes : plan.Describes graph) :
    (ofPlan plan).lines.filterMap (after? "call ") = (ofPlan plan).calls.map (fun id => subName id ++ ";") ∧
      (ofPlan plan).lines.filterMap (after? "sub ") = (ofPlan plan).subs.map fun sub => subName sub.1 := by
  obtain ⟨calls, subs⟩ := calls_script describes
  constructor
  · rw [filterMap_lines (by decide), said?_call, ← List.map_filterMap, calls, List.map_map]
    rfl
  · rw [filterMap_lines (by decide), said?_sub, subs]

end Lines

/-- Records are written as a script if they can be loaded and the graph can be planned. -/
theorem decompile_eq_ok_iff {records : List Record} {width : Nat} {text : String} :
    decompile records width = .ok text ↔ ∃ loaded plan, Graph.ofRecords records = .ok loaded ∧
      Plan.ofGraph loaded = .ok plan ∧ text = (Draft.ofPlan plan).text width := by
  rw [decompile, Success.bind_eq_ok_iff]
  simp only [decompileGraph, Success.map_eq_ok_iff]
  constructor
  · rintro ⟨loaded, loads, plan, planned, rfl⟩
    exact ⟨loaded, plan, loads, planned, rfl⟩
  · rintro ⟨loaded, plan, loads, planned, rfl⟩
    exact ⟨loaded, loads, plan, planned, rfl⟩

end Outline

open Outline (Draft Plan)

/-- A script that is written for records writes every node of the graph, with chains of decisions joined,
exactly once. Its outlines are those of the entry and of the subs, and they show their nodes: every child
is called or, where this is its only use, written right there. A sub is called as often as its node is used;
all other nodes but the entry are used once and not called. The calls and subs of the script are just
these, in its statements and in the lines of the text, and no two subs share a name. -/
theorem decompile_writes_once {records : List Record} {width : Nat} {text : String}
    (success : Outline.decompile records width = .ok text) :
    ∃ loaded plan, Graph.ofRecords records = .ok loaded ∧ Plan.ofGraph loaded = .ok plan ∧
      text = (Draft.ofPlan plan).text width ∧
      (∀ id outline, (id, outline) ∈ (Graph.entry, (Draft.ofPlan plan).main) :: (Draft.ofPlan plan).subs →
        outline.root = id ∧ outline.Shows plan false) ∧
      (Draft.ofPlan plan).written.Perm plan.graph.ids ∧
      (∀ id, id ∈ (Draft.ofPlan plan).subs.map Prod.fst ↔ id ∈ (Draft.ofPlan plan).calls) ∧
      (∀ id ∈ plan.graph.ids, id ≠ Graph.entry →
        (id ∈ (Draft.ofPlan plan).calls →
          (Draft.ofPlan plan).calls.count id = (plan.graph.ids.flatMap plan.graph.children).count id) ∧
        (id ∉ (Draft.ofPlan plan).calls → (plan.graph.ids.flatMap plan.graph.children).count id = 1)) ∧
      (Script.Statement.walkBody (Draft.ofPlan plan).script).filterMap Outline.called? =
        (Draft.ofPlan plan).calls.map Outline.subName ∧
      (Script.Statement.walkBody (Draft.ofPlan plan).script).filterMap Script.declaredSub? =
        (Draft.ofPlan plan).subs.map (fun sub => Outline.subName sub.1) ∧
      (Draft.ofPlan plan).lines.filterMap (Outline.after? "call ") =
        (Draft.ofPlan plan).calls.map (fun id => Outline.subName id ++ ";") ∧
      (Draft.ofPlan plan).lines.filterMap (Outline.after? "sub ") =
        (Draft.ofPlan plan).subs.map (fun sub => Outline.subName sub.1) ∧
      ((Draft.ofPlan plan).subs.map fun sub => Outline.subName sub.1).Nodup := by
  obtain ⟨loaded, plan, loads, planned, rfl⟩ := Outline.decompile_eq_ok_iff.mp success
  have describes := Outline.describes_of_ofGraph (Graph.proper_of_ofRecords loads) (Graph.plain_of_ofRecords loads)
    planned
  obtain ⟨calls, subs⟩ := Draft.calls_script describes
  obtain ⟨callLines, subLines⟩ := Draft.marked_lines describes
  refine ⟨loaded, plan, loads, planned, rfl, ?_, Draft.written_perm describes, fun id => Draft.mem_subs_iff describes,
    ?_, calls, subs, callLines, subLines, Draft.nodup_subNames plan⟩
  · intro id outline member
    rcases List.mem_cons.mp member with same | isSub
    · cases same
      exact ⟨plan.root_draw _ _, describes.shows_draw describes.joined.entry false⟩
    · have isRoot : id ∈ (Draft.ofPlan plan).roots := List.mem_cons_of_mem _ (List.mem_map_of_mem isSub)
      rw [(Draft.subsOf plan).outline id outline isSub]
      exact ⟨plan.root_draw _ _, describes.shows_draw (Draft.stored_of_mem_roots describes isRoot) false⟩
  · intro id stored other
    obtain ⟨node, found⟩ := Graph.mem_ids_iff.mp stored
    exact Draft.count_calls describes found other

/-- A decision with two ways that come together again. -/
def rejoined : List Record :=
  [⟨.decision, 2, [⟨"nickname", [.name "c"]⟩], [3, 4]⟩,
    ⟨.documentation, 3, [⟨"documentation", [.name "one"]⟩], [5]⟩,
    ⟨.documentation, 4, [⟨"documentation", [.name "two"]⟩], [5]⟩,
    ⟨.documentation, 5, [⟨"documentation", [.name "end"]⟩], []⟩]

/-- The common end of the two ways is written once, as a sub that is called twice. -/
theorem decompile_writes_once_rejoined : ∃ text plan, Outline.decompile rejoined 4 = .ok text ∧
    text = (Draft.ofPlan plan).text 4 ∧ (Draft.ofPlan plan).written.Perm plan.graph.ids ∧
    (Script.Statement.walkBody (Draft.ofPlan plan).script).filterMap Outline.called? =
      (Draft.ofPlan plan).calls.map Outline.subName ∧
    (Draft.ofPlan plan).lines.filterMap (Outline.after? "call ") = ["node_5;", "node_5;"] ∧
    (Draft.ofPlan plan).lines.filterMap (Outline.after? "sub ") = ["node_5"] := by
  have evaluated : (do
      let loaded ← (Graph.ofRecords rejoined).toOption
      let plan ← (Plan.ofGraph loaded).toOption
      return ((Draft.ofPlan plan).calls, (Draft.ofPlan plan).subs.map Prod.fst)) = some ([5, 5], [5]) := by
    cbv
  obtain ⟨loaded, loads, evaluated⟩ := Success.exists_of_toOption_bind evaluated
  obtain ⟨plan, planned, evaluated⟩ := Success.exists_of_toOption_bind evaluated
  obtain ⟨calls, subs⟩ := Prod.mk.inj (Option.some.inj evaluated)
  have success : Outline.decompile rejoined 4 = .ok ((Draft.ofPlan plan).text 4) :=
    Outline.decompile_eq_ok_iff.mpr ⟨loaded, plan, loads, planned, rfl⟩
  obtain ⟨again, known, alsoLoads, alsoPlanned, isText, _, once, _, _, called, _, callLines, subLines, _⟩ :=
    decompile_writes_once success
  obtain rfl : again = loaded := Except.ok.inj (alsoLoads.symm.trans loads)
  obtain rfl : known = plan := Except.ok.inj (alsoPlanned.symm.trans planned)
  refine ⟨_, known, success, isText, once, called, ?_, ?_⟩
  · rw [callLines, calls]
    rfl
  · have names := congrArg (List.map Outline.subName) subs
    rw [List.map_map] at names
    exact subLines.trans names

end MissionGraph
