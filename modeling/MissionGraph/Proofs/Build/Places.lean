import MissionGraph.Proofs.Build.Choices

/-!
# What lies at a number

Every number that a layout uses up is the start of a part: of an `if`, or of a body behind a new node. So
every decision of the graph of a script belongs to a block of an `if`, and the block lies right behind it.
Nothing else leads to that block.
-/

namespace MissionGraph

open Mission (Data)
open Script (Block Statement)

variable {α : Type} {graph : Graph} {scope : Scope} {part : Part α} {all : List (Statement α)} {first last : Nat}

/-- What is laid out from a number on: an `if`, or a body behind a new node. -/
inductive PlacedAt (graph : Graph) (scope : Scope) (all : List (Statement α)) (id last : Nat) : Prop where
  | choice (blocks : List (Block α)) (within : (Part.choice blocks).Within all)
      (layout : Layout graph scope (.choice blocks) id last)
  | body (content : Content) (statements : List (Statement α)) (plain : Node.nickname? ⟨content, []⟩ = none)
      (within : (Part.body id ⟨content, []⟩ statements).Within all)
      (layout : Layout graph scope (.body id ⟨content, []⟩ statements) (id + 1) last)

/-- A body is made of its own statements. -/
theorem Part.Within.self {root : NodeId} {content : Content} {body : List (Statement α)} :
    (Part.body root ⟨content, []⟩ body).Within (Statement.walkBody body) :=
  ⟨fun _ inside => inside, nofun⟩

namespace Layout

/-- A part is laid out from every number that a layout uses up. -/
theorem exists_at (layout : Layout graph scope part first last) (within : part.Within all) {id : Nat}
    (low : first ≤ id) (high : id < last) : ∃ final, final ≤ last ∧ PlacedAt graph scope all id final := by
  have behind {content : Content} {statements : List (Statement α)} {first last : Nat}
      (plain : Node.nickname? ⟨content, []⟩ = none)
      (within : (Part.body first ⟨content, []⟩ statements).Within all)
      (layout : Layout graph scope (.body first ⟨content, []⟩ statements) (first + 1) last)
      (low : first ≤ id)
      (later : first + 1 ≤ id → ∃ final, final ≤ last ∧ PlacedAt graph scope all id final) :
      ∃ final, final ≤ last ∧ PlacedAt graph scope all id final := by
    by_cases isFirst : id = first
    · subst isFirst
      exact ⟨last, Nat.le_refl _, .body content statements plain within layout⟩
    · exact later (by omega)
  induction layout with
  | done _ => exact absurd high (Nat.not_lt.mpr low)
  | fieldHere _ _ _ ih => exact ih within.tail low high
  | fieldBehind _ _ _ later ih => exact behind rfl within.tail later low fun up => ih within.tail up high
  | missingHere _ ih => exact ih within.tail low high
  | missingBehind _ _ later ih => exact behind rfl within.tail later low fun up => ih within.tail up high
  | doc _ later ih => exact behind rfl within.tail later low fun up => ih within.tail up high
  | call _ _ ih => exact ih within.tail low high
  | choiceBehind _ _ ih => exact ih (.choice within.walk) low high
  | @choice nickname block blocks first middle last named found inner later ihBlock ihRest =>
      by_cases isFirst : id = first
      · subst isFirst
        exact ⟨last, Nat.le_refl _, .choice _ within (.choice named found inner later)⟩
      · by_cases inBlock : id < middle
        · obtain ⟨final, below, placed⟩ := ihBlock within.firstBlock (by omega) inBlock
          exact ⟨final, Nat.le_trans below later.le.1, placed⟩
        · exact ihRest within.otherBlocks (by omega) high
  | lastBlock _ ih => exact ih within.onlyBlock low high
  | laterBlocks _ ih => exact ih within.laterBlocks low high
  | groupBlock _ inner ih =>
      exact behind rfl within.blockBody inner low fun up => ih within.blockBody up high
  | innerChoice _ _ ih => exact ih within.innerChoice low high
  | plainBlock _ _ inner ih =>
      exact behind rfl within.blockBody inner low fun up => ih within.blockBody up high

/-- The node before a body does not become a decision, and leads where it led before, to called subs, or to
the first number of the body. -/
theorem cursor_node {cursor : NodeId} {node : Node} {statements : List (Statement α)}
    (layout : Layout graph scope (.body cursor node statements) first last) (plain : node.nickname? = none) :
    ∃ final, graph.get? cursor = some final ∧ final.nickname? = none ∧
      ∀ child ∈ final.children, child ∈ node.children ∨ child = first ∨
        ∃ name, scope.subs.lookup name = some child := by
  have stop {cursor : NodeId} {node : Node} {first : Nat} (plain : node.nickname? = none)
      (found : graph.get? cursor = some (node.leadingTo first)) :
      ∃ final, graph.get? cursor = some final ∧ final.nickname? = none ∧
        ∀ child ∈ final.children, child ∈ node.children ∨ child = first ∨
          ∃ name, scope.subs.lookup name = some child :=
    ⟨_, found, plain, fun child member => (Node.mem_children_leadingTo.mp member).imp_right .inl⟩
  induction statements generalizing node with
  | nil =>
      cases layout with
      | done found => exact ⟨_, found, plain, fun child member => .inl member⟩
  | cons statement rest ih =>
      cases layout with
      | fieldHere _ _ later =>
          have kept := ih later rfl
          exact kept
      | fieldBehind _ _ found _ => exact stop plain found
      | missingHere later =>
          have kept := ih later rfl
          exact kept
      | missingBehind _ found _ => exact stop plain found
      | doc found _ => exact stop plain found
      | choiceBehind found _ => exact stop plain found
      | @call _ _ _ name target _ _ _ known later =>
          obtain ⟨final, found, stays, leads⟩ := ih later plain
          refine ⟨final, found, stays, fun child member => ?_⟩
          rcases leads child member with before | isFirst | called
          · rcases Node.mem_children_leadingTo.mp before with old | rfl
            · exact .inl old
            · exact .inr (.inr ⟨name, known⟩)
          · exact .inr (.inl isFirst)
          · exact .inr (.inr called)

/-- The node before a body is no decision. -/
theorem cursor_ne_decision {cursor : NodeId} {node : Node} {statements : List (Statement α)}
    (layout : Layout graph scope (.body cursor node statements) first last) (plain : node.nickname? = none)
    (nickname : String) (children : List NodeId) : graph.get? cursor ≠ some ⟨.decision nickname, children⟩ := by
  intro found
  obtain ⟨_, foundAgain, stays, _⟩ := layout.cursor_node plain
  rw [found] at foundAgain
  cases foundAgain
  cases stays

end Layout

/-- The decision at a number tests for a block of an `if`, which lies right behind it. -/
theorem PlacedAt.decision {id : Nat} (placed : PlacedAt graph scope all id last) {nickname : String}
    {children : List NodeId} (found : graph.get? id = some ⟨.decision nickname, children⟩) :
    ∃ note blocks block middle, .choice note blocks ∈ all ∧ block ∈ blocks ∧
      block.condition.nickname? = some nickname ∧ children = [id + 1, middle] ∧
      Layout graph scope (.block block) (id + 1) middle := by
  cases placed with
  | choice blocks within layout =>
      cases layout with
      | @choice _ block rest _ middle _ named foundAgain inner later =>
          rw [found] at foundAgain
          cases foundAgain
          obtain ⟨note, whole, listed, member⟩ := within.tests block List.mem_cons_self
          exact ⟨note, whole, block, middle, listed, member, named, rfl, inner⟩
  | body content statements plain within layout => exact absurd found (layout.cursor_ne_decision plain _ _)

/-- Every stored node of the graph of a script is the start of a body, or a part of a body lies there. -/
theorem LaidOut.placed {script : List (Statement α)} (laid : LaidOut script graph) {id : NodeId} {node : Node}
    (found : graph.get? id = some node) :
    ∃ root body low high, (root, body) ∈ Script.bodiesOf script ∧
      BodyAt graph (Script.scopeOf script) root body low high ∧
      (id = root ∨ low ≤ id ∧ id < high ∧ ∃ final, final ≤ high ∧
        PlacedAt graph (Script.scopeOf script) (Statement.walkBody script) id final) := by
  obtain ⟨root, body, low, high, listed, bodyAt, covered⟩ := laid.cover found
  refine ⟨root, body, low, high, listed, bodyAt, ?_⟩
  rcases covered with ⟨from_low, to_high⟩ | isRoot
  · have within : (Part.body root ⟨.data .empty, []⟩ body).Within (Statement.walkBody script) :=
      ⟨fun inner member => Script.mem_walkBody_of_mem_bodiesOf listed member,
        fun _ member => absurd member List.not_mem_nil⟩
    exact .inr ⟨from_low, to_high, bodyAt.layout.exists_at within from_low to_high⟩
  · exact .inl isRoot

/-- Every decision of the graph of a script tests for a block of an `if`, which lies right behind it. -/
theorem LaidOut.decision {script : List (Statement α)} (laid : LaidOut script graph) {id : NodeId}
    {nickname : String} {children : List NodeId}
    (found : graph.get? id = some ⟨.decision nickname, children⟩) :
    ∃ note blocks block middle, .choice note blocks ∈ Statement.walkBody script ∧ block ∈ blocks ∧
      block.condition.nickname? = some nickname ∧ children = [id + 1, middle] ∧
      Layout graph (Script.scopeOf script) (.block block) (id + 1) middle := by
  obtain ⟨root, body, low, high, _, bodyAt, isRoot | ⟨_, _, final, _, placed⟩⟩ := laid.placed found
  · subst isRoot
    exact absurd found (bodyAt.layout.cursor_ne_decision rfl _ _)
  · exact placed.decision found

/-! ## What leads to a block -/

/-- The block behind a decision lies before the end of what is laid out from the decision on. -/
theorem PlacedAt.room {id : Nat} (placed : PlacedAt graph scope all id last) {nickname : String}
    {children : List NodeId} (found : graph.get? id = some ⟨.decision nickname, children⟩) : id + 1 < last := by
  cases placed with
  | choice blocks within layout =>
      cases layout with
      | choice _ _ inner later => exact Nat.lt_of_lt_of_le (inner.le.2 rfl) later.le.1
  | body content statements plain within layout => exact absurd found (layout.cursor_ne_decision plain _ _)

/-- In a body nothing leads to the number behind a decision but the decision, unless the body starts there or
the number is that of a sub. -/
theorem Layout.parent_eq {root : NodeId} {body : List (Statement α)}
    (layout : Layout graph scope (.body root ⟨.data .empty, []⟩ body) first last) (below : root < first)
    {key : Nat} {nickname : String} {children : List NodeId}
    (decision : graph.get? key = some ⟨.decision nickname, children⟩) (apart : key + 1 ≠ first)
    (uncalled : ∀ name, scope.subs.lookup name ≠ some (key + 1)) {parent : Nat}
    (covered : Covers root first last parent) (edge : graph.Child parent (key + 1)) : parent = key := by
  obtain ⟨node, found, member⟩ := Graph.child_iff.mp edge
  rcases covered with ⟨low, high⟩ | rfl
  · obtain ⟨final, _, placed⟩ := layout.exists_at .self low high
    cases placed with
    | body content statements plain _ inner =>
        obtain ⟨stored, foundAgain, _, leads⟩ := inner.cursor_node plain
        rw [found] at foundAgain
        cases foundAgain
        rcases leads _ member with old | isNext | ⟨name, known⟩
        · cases old
        · exact (Nat.succ.inj isNext).symm
        · exact absurd known (uncalled name)
    | choice blocks isWithin inner =>
        cases inner with
        | @choice _ block rest _ middle _ _ foundAgain block later =>
            rw [found] at foundAgain
            cases foundAgain
            rcases List.mem_pair.mp member with isNext | isSecond
            · exact (Nat.succ.inj isNext).symm
            · -- the decision would be the last number of a block, with no room for its own first block
              subst isSecond
              have least : parent + 1 < key + 1 := block.le.2 rfl
              obtain ⟨final, early, inBlock⟩ := block.exists_at isWithin.firstBlock (by omega) (Nat.lt_succ_self key)
              have room := inBlock.room decision
              omega
  · obtain ⟨stored, foundAgain, _, leads⟩ := layout.cursor_node rfl
    rw [found] at foundAgain
    cases foundAgain
    rcases leads _ member with old | isFirst | ⟨name, known⟩
    · cases old
    · exact absurd isFirst apart
    · exact absurd known (uncalled name)

/-- The same for several bodies. -/
theorem Layouts.parent_eq {bodies : List (NodeId × List (Statement α))}
    (layouts : Layouts graph scope bodies first last) (below : ∀ root ∈ bodies.map Prod.fst, root < first)
    {key : Nat} {nickname : String} {children : List NodeId}
    (decision : graph.get? key = some ⟨.decision nickname, children⟩) (apart : key + 1 ≠ first)
    (uncalled : ∀ name, scope.subs.lookup name ≠ some (key + 1)) {parent : Nat}
    (used : (first ≤ parent ∧ parent < last) ∨ parent ∈ bodies.map Prod.fst)
    (edge : graph.Child parent (key + 1)) : parent = key := by
  induction layouts with
  | nil =>
      rcases used with ⟨low, high⟩ | member
      · exact absurd high (Nat.not_lt.mpr low)
      · cases member
  | @cons root body bodies first middle last head tail ih =>
      have least := head.le.1
      have inHead (covered : Covers root first middle parent) : parent = key :=
        head.parent_eq (below root List.mem_cons_self) decision apart uncalled covered edge
      have inTail (usedRest : (middle ≤ parent ∧ parent < last) ∨ parent ∈ bodies.map Prod.fst) : parent = key := by
        refine ih (fun other member => ?_) ?_ usedRest
        · exact Nat.lt_of_lt_of_le (below other (List.mem_cons_of_mem _ member)) least
        · rintro rfl
          obtain ⟨final, early, placed⟩ := head.exists_at .self (by omega) (Nat.lt_succ_self key)
          have room := placed.room decision
          omega
      rcases used with ⟨low, high⟩ | member
      · by_cases inFirst : parent < middle
        · exact inHead (.inl ⟨low, inFirst⟩)
        · exact inTail (.inl ⟨Nat.le_of_not_lt inFirst, high⟩)
      · rcases List.mem_cons.mp member with same | later
        · exact inHead (.inr same)
        · exact inTail (.inr later)

/-- In the graph of a script nothing leads to the number behind a decision but the decision. -/
theorem LaidOut.parent_eq {script : List (Statement α)} (laid : LaidOut script graph) {key : Nat}
    {nickname : String} {children : List NodeId}
    (decision : graph.get? key = some ⟨.decision nickname, children⟩) {parent : Nat}
    (edge : graph.Child parent (key + 1)) : parent = key := by
  -- a body starts at a data node, so the decision lies behind all starts
  have later : Graph.entry + 1 + (Script.subsOf script).length ≤ key := by
    refine Nat.le_of_not_lt fun early => ?_
    obtain ⟨⟨root, body⟩, listed, rfl⟩ := List.mem_map.mp (Script.mem_roots_iff.mpr ⟨(laid.stored _ _ decision).1, early⟩)
    obtain ⟨low, high, bodyAt⟩ := laid.bodyAt listed
    exact bodyAt.layout.cursor_ne_decision rfl _ _ decision
  obtain ⟨node, found, _⟩ := Graph.child_iff.mp edge
  obtain ⟨low, high⟩ := laid.stored _ _ found
  refine laid.layouts.parent_eq (fun root listed => (LaidOut.root_lt listed).2) decision
    (Nat.ne_of_gt (Nat.lt_succ_of_le later)) ?_ ?_ edge
  · intro name known
    obtain ⟨body, declared⟩ := Script.mem_subsOf_of_lookup known
    have listed := List.mem_map_of_mem (f := Prod.fst) (Script.mem_bodiesOf_of_mem_subsOf declared)
    exact absurd (LaidOut.root_lt listed).2 (Nat.not_lt.mpr (Nat.le_succ_of_le later))
  · by_cases early : parent < Graph.entry + 1 + (Script.subsOf script).length
    · exact .inr (Script.mem_roots_iff.mpr ⟨low, early⟩)
    · exact .inl ⟨Nat.le_of_not_lt early, high⟩

end MissionGraph
