import MissionGraph.Proofs.Build.Compiled
import MissionGraph.Proofs.Build.Progress
import MissionGraph.Proofs.Script.Acceptance

/-!
# The checks agree with construction

Construction declares names exactly as the check of the declarations does, with the same faults. A script
whose declarations or references do not pass the checks cannot be built. If both pass, construction fails
exactly if a statement follows an `if`. It never meets what the grammar rules out.
-/

namespace MissionGraph

open Script (Block Cause Fault FaultIn Flat PastIf Pos Program RegularBody Statement Undeclaring WellFormed bodiesOf
  checkDeclarations checkNames checkReferences declaredGroup? declaredSub? mains scopeOf)

namespace Builder

/-! ## Declarations -/

theorem isSome_lookup_iff {β : Type} {known : List (String × β)} {name : String} :
    (known.lookup name).isSome = true ↔ name ∈ known.map Prod.fst := by
  rw [List.lookup_isSome_iff, List.mem_map]
  simp only [beq_iff_eq, @eq_comm _ name]

theorem lookup_eq_none_of_not_mem {β : Type} {known : List (String × β)} {name : String}
    (unknown : name ∉ known.map Prod.fst) : known.lookup name = none := by
  rwa [← isSome_lookup_iff, Option.not_isSome_iff_eq_none] at unknown

/-- Declaring the names of a script fails exactly where the check for repeated names does. -/
theorem fails_declare_iff {script : Program} {before : Builder} {fault : Fault} :
    (∃ after, Fails (declare script) before fault after) ↔
      checkNames (before.groups.map Prod.fst) (before.subs.map Prod.fst) script = .error fault := by
  induction script generalizing before with
  | nil =>
      refine iff_of_false ?_ (by intro impossible; cases impossible)
      rintro ⟨_, fails⟩
      exact not_fails_pure fails
  | cons statement rest ih =>
      cases statement with
      | group pos group =>
          rw [declare, checkNames]
          split
          · rename_i known
            exact exists_fails_bind_iff (fails_declareGroup_iff.mpr ⟨isSome_lookup_iff.mpr known, rfl, rfl⟩)
          · rename_i unknown
            have declares : Runs (declareGroup pos group) before () _ :=
              runs_declareGroup_iff.mpr ⟨lookup_eq_none_of_not_mem unknown, rfl⟩
            exact (exists_congr fun _ => fails_bind_of_runs declares).trans ih
      | sub pos name body =>
          rw [declare, checkNames]
          split
          · rename_i known
            exact exists_fails_bind_iff (fails_declareSub_iff.mpr ⟨isSome_lookup_iff.mpr known, rfl, rfl⟩)
          · rename_i unknown
            have declares : Runs (declareSub pos name body) before () _ :=
              runs_declareSub_iff.mpr ⟨lookup_eq_none_of_not_mem unknown, rfl⟩
            exact (exists_congr fun _ => fails_bind_of_runs declares).trans ih
      | _ => exact (exists_congr fun _ => fails_bind_pure_iff).trans ih

theorem fails_declare_start_iff {script : Program} {fault : Fault} :
    (∃ after, Fails (declare script) start fault after) ↔ checkDeclarations script = .error fault :=
  fails_declare_iff

end Builder

/-! ## References -/

/-- The references of every script that is laid out pass the checks. -/
theorem LaidOut.checkReferences {script : Program} {graph : Graph} (laid : LaidOut script graph) :
    checkReferences script = .ok () :=
  Script.checkReferences_of_buildable fun _ _ listed => laid.layouts.buildable listed

namespace Script

theorem exists_lookup_reverse {β : Type} {known : List (String × β)} {name : String} (listed : name ∈ known.map Prod.fst) :
    ∃ value, known.reverse.lookup name = some value := by
  rw [← Option.isSome_iff_exists, Builder.isSome_lookup_iff, List.map_reverse, List.mem_reverse]
  exact listed

theorem exists_lookup_of_groupFault? {script : Program} {pos : Pos} {name : String}
    (none_found : groupFault? (script.filterMap declaredGroup?) pos name = none) :
    ∃ factions, (scopeOf script).groups.lookup name = some factions := by
  refine exists_lookup_reverse ?_
  rw [map_fst_groupsOf]
  by_contra undeclared
  rw [groupFault?, if_neg undeclared] at none_found
  cases none_found

/-- A statement without a fault refers to what is known. -/
theorem known_of_referenceFault? {script : Program} {statement : Statement Pos} (formed : statement.wellFormed = true)
    (none_found : referenceFault? (script.filterMap declaredGroup?) (script.filterMap declaredSub?) statement = none) :
    statement.Known (scopeOf script) := by
  cases statement with
  | call pos name =>
      refine exists_lookup_reverse ?_
      rw [List.map_map]
      by_contra undeclared
      rw [referenceFault?, if_neg] at none_found
      · cases none_found
      · rwa [← map_name_subsFrom (Graph.entry + 1)]
  | field pos value =>
      show ∃ factions, Builder.factionsFor? (scopeOf script).groups value = some factions
      rw [referenceFault?] at none_found
      rw [Builder.factionsFor?]
      split
      · rename_i name refers
        rw [refers] at none_found
        exact exists_lookup_of_groupFault? none_found
      · exact ⟨_, rfl⟩
  | choice pos blocks =>
      refine ⟨two_le_length_of_wellFormedBlocks formed, fun block member => ?_⟩
      have resolved := List.findSome?_eq_none_iff.mp none_found block member
      cases isGroup : block.condition with
      | group name =>
          rw [isGroup] at resolved
          exact exists_lookup_of_groupFault? resolved
      | _ => trivial
  | _ => trivial

theorem undeclaring_mains {script : Program} (flat : Flat script) : Undeclaring (mains script) := by
  have flatRest {head : Statement Pos} {rest : Program} (whole : Flat (head :: rest)) : Flat rest :=
    fun statement member => whole statement (List.mem_cons_of_mem _ member)
  fun_induction mains script with
  | case1 => exact fun _ member => absurd member List.not_mem_nil
  | case2 pos group rest ih => exact ih (flatRest flat)
  | case3 pos name body rest ih => exact ih (flatRest flat)
  | case4 first rest notGroup notSub ih =>
      refine List.forall_mem_append.mpr ⟨?_, ih (flatRest flat)⟩
      have inside := flat first List.mem_cons_self
      cases first with
      | group pos group => exact absurd rfl (notGroup pos group)
      | sub pos name body => exact absurd rfl (notSub pos name body)
      | _ => exact List.forall_mem_cons.mpr ⟨rfl, inside⟩

/-- The bodies of a script without declarations inside other statements have no declarations. -/
theorem undeclaring_of_mem_bodiesOf {script : Program} (flat : Flat script) {root : NodeId}
    {body : List (Statement Pos)} (listed : (root, body) ∈ bodiesOf script) : Undeclaring body := by
  rcases List.mem_cons.mp listed with same | declared
  · cases same
    exact undeclaring_mains flat
  · obtain ⟨⟨id, name, inner⟩, isSub, same⟩ := List.mem_map.mp declared
    cases same
    obtain ⟨pos, member⟩ := exists_mem_of_mem_subsFrom isSub
    exact flat _ member

/-- The bodies of a script that a text denotes are regular. -/
theorem regular_of_mem_bodiesOf {script : Program} (flat : Flat script) (formed : WellFormed script) {root : NodeId}
    {body : List (Statement Pos)} (listed : (root, body) ∈ bodiesOf script) : RegularBody body := by
  intro statement member
  have undeclaring := undeclaring_of_mem_bodiesOf flat listed statement member
  have isFormed := formed statement (mem_walkBody_of_mem_bodiesOf listed member)
  cases statement with
  | sub pos name body => cases undeclaring
  | group pos group => cases undeclaring
  | choice pos blocks => exact ⟨two_le_length_of_wellFormedBlocks isFormed, tested_of_wellFormedBlocks isFormed⟩
  | _ => trivial

/-- What the statements of a script that passes the check of the references refer to is known. -/
theorem known_of_checkReferences {script : Program} (formed : WellFormed script)
    (passed : checkReferences script = .ok ()) :
    ∀ statement ∈ Statement.walkBody script, statement.Known (scopeOf script) :=
  fun statement member =>
    known_of_referenceFault? (formed statement member) (checkReferences_eq_ok_iff.mp passed statement member)

end Script

namespace Builder

/-- If the step fails, then because something follows an `if`. -/
def OnlyPastIf {α : Type} (step : Build α) (before : Builder) : Prop :=
  ∀ fault after, Fails step before fault after → fault.cause = .continuesPastIf

/-- The graph of a script is missing exactly if its construction fails. -/
theorem ofScript_eq_error_iff {script : Program} {fault : Fault} :
    Graph.ofScript script = .error fault ↔ ∃ after, Fails (buildScript script) start fault after := by
  unfold Graph.ofScript rawGraph Fails
  cases (buildScript script).run start with
  | ok _ builder => exact iff_of_false (by intro impossible; cases impossible) (by rintro ⟨_, ⟨⟩⟩)
  | error met builder =>
      constructor
      · rintro ⟨⟩
        exact ⟨builder, rfl⟩
      · rintro ⟨_, ⟨⟩⟩
        rfl

/-- If the references of a script pass the check, construction only fails at a statement behind an `if` once
the names are declared. -/
theorem failsOnly_pastIf {script others : Program} {declared : Builder} (flat : Flat script)
    (formed : WellFormed script) (passed : checkReferences script = .ok ())
    (runs : Runs (declare script) start others declared) :
    FailsOnly (fun fault => ∃ statement, PastIf script statement ∧ fault = ⟨statement.note, .continuesPastIf⟩)
      (addScript others) declared := by
  have regular {root : NodeId} {body : List (Statement Pos)} (listed : (root, body) ∈ bodiesOf script) :=
    Script.regular_of_mem_bodiesOf flat formed listed
  refine (failsOnly_addScript_of_declare (fun _ _ => regular) runs).mono ?_
  rintro fault ⟨root, body, listed, faultIn⟩
  exact (Script.sequence_of_mem_bodiesOf listed).pastIf_of_faultIn
    (Script.known_of_checkReferences formed passed) faultIn

theorem onlyPastIf_addScript_of_declare {script others : Program} {declared : Builder} (flat : Flat script)
    (formed : WellFormed script) (passed : checkReferences script = .ok ())
    (runs : Runs (declare script) start others declared) : OnlyPastIf (addScript others) declared := by
  intro fault after fails
  obtain ⟨_, _, rfl⟩ := failsOnly_pastIf flat formed passed runs fault after fails
  rfl

end Builder

theorem ofScript_of_checkDeclarations {script : Program} {fault : Fault}
    (refused : checkDeclarations script = .error fault) : Graph.ofScript script = .error fault := by
  obtain ⟨after, fails⟩ := Builder.fails_declare_start_iff.mpr refused
  exact Builder.ofScript_eq_error_iff.mpr ⟨after, Builder.fails_bind_iff.mpr (.inl fails)⟩

theorem ofScript_of_checkReferences {script : Program} {fault : Fault} (formed : WellFormed script)
    (refused : checkReferences script = .error fault) : ∃ other, Graph.ofScript script = .error other := by
  cases built : Builder.rawGraph script with
  | error other => exact ⟨other, by rw [Graph.ofScript, built]; rfl⟩
  | ok graph =>
      have passed := (Builder.laidOut_of_rawGraph built formed.forks).checkReferences
      cases passed.symm.trans refused

/-- Whether a text is built whose declarations and references pass the checks. -/
def isBuilt? (source : String) : Option Bool := do
  let script ← (Script.parse source).toOption
  let _ ← (checkDeclarations script).toOption
  let _ ← (checkReferences script).toOption
  return (Graph.ofScript script).toOption.isSome

theorem exists_of_isBuilt?_eq_false {source : String} (evaluated : isBuilt? source = some false) :
    ∃ script fault, Script.parse source = .ok script ∧ checkDeclarations script = .ok () ∧
      checkReferences script = .ok () ∧ Graph.ofScript script = .error fault := by
  obtain ⟨script, parsed, evaluated⟩ := Success.exists_of_toOption_bind evaluated
  obtain ⟨_, declarations, evaluated⟩ := Success.exists_of_toOption_bind evaluated
  obtain ⟨_, references, evaluated⟩ := Success.exists_of_toOption_bind evaluated
  cases result : Graph.ofScript script with
  | ok graph =>
      rw [result] at evaluated
      cases evaluated
  | error fault => exact ⟨script, fault, parsed, declarations, references, result⟩

/-- The checks of a parsed script agree with its construction: names are declared with the same faults, what
does not pass the checks is not built, and what passes them is built unless a statement follows an `if`. -/
theorem construction_agrees_with_checks {source : String} {script : Program} (parsed : Script.parse source = .ok script) :
    (∀ fault, (∃ after, Builder.Fails (Builder.declare script) Builder.start fault after) ↔
        checkDeclarations script = .error fault) ∧
      (∀ fault, checkDeclarations script = .error fault ∨ checkReferences script = .error fault →
        ∃ other, Graph.ofScript script = .error other) ∧
      (checkDeclarations script = .ok () → checkReferences script = .ok () →
        (∃ graph, Graph.ofScript script = .ok graph) ∨
          ∃ fault, Graph.ofScript script = .error fault ∧ fault.cause = .continuesPastIf ∧
            fault.cause.message = "Control flow cannot continue past if") := by
  have formed := Script.wellFormed_of_parse parsed
  have flat := Script.flat_of_parse parsed
  refine ⟨fun fault => Builder.fails_declare_start_iff, ?_, ?_⟩
  · rintro fault (declarations | references)
    · exact ⟨fault, ofScript_of_checkDeclarations declarations⟩
    · exact ofScript_of_checkReferences formed references
  · intro declarations references
    cases result : Graph.ofScript script with
    | ok graph => exact .inl ⟨graph, rfl⟩
    | error fault =>
        have cause : fault.cause = .continuesPastIf := by
          obtain ⟨after, fails⟩ := Builder.ofScript_eq_error_iff.mp result
          rcases Builder.fails_bind_iff.mp fails with failsDeclare | ⟨others, declared, runs, failsAdd⟩
          · have refused := Builder.fails_declare_start_iff.mp ⟨after, failsDeclare⟩
            cases declarations.symm.trans refused
          · exact Builder.onlyPastIf_addScript_of_declare flat formed references runs fault after failsAdd
        exact .inr ⟨fault, rfl, cause, by rw [cause]; rfl⟩

/-- The main statements go on behind an `if`. -/
def behindIf : String :=
  "group A x; sub f weight 1; end call f; if group(A) doc y; else doc z; end doc w;"

theorem construction_agrees_with_checks_past_if : ∃ script, Script.parse behindIf = .ok script ∧
    checkDeclarations script = .ok () ∧ checkReferences script = .ok () ∧
      ∃ fault, Graph.ofScript script = .error fault ∧ fault.cause = .continuesPastIf := by
  have evaluated : isBuilt? behindIf = some false := by decide +kernel
  obtain ⟨script, fault, parsed, declarations, references, failed⟩ := exists_of_isBuilt?_eq_false evaluated
  refine ⟨script, parsed, declarations, references, fault, failed, ?_⟩
  obtain ⟨_, _, built⟩ := construction_agrees_with_checks parsed
  rcases built declarations references with ⟨graph, success⟩ | ⟨met, alsoFailed, cause, _⟩
  · cases success.symm.trans failed
  · rw [Except.error.inj (failed.symm.trans alsoFailed)]
    exact cause

/-- A script that passes the checks cannot be built exactly if a statement stands behind an `if`, and the fault is
at such a statement. -/
theorem ofScript_fails_iff_pastIf {source : String} {script : Program} (parsed : Script.parse source = .ok script)
    (declarations : checkDeclarations script = .ok ()) (references : checkReferences script = .ok ()) :
    ((∃ fault, Graph.ofScript script = .error fault) ↔ ∃ statement, PastIf script statement) ∧
      ∀ fault, Graph.ofScript script = .error fault →
        fault.cause = .continuesPastIf ∧ fault.cause.message = "Control flow cannot continue past if" ∧
          ∃ statement, PastIf script statement ∧ fault.pos = statement.note := by
  have formed := Script.wellFormed_of_parse parsed
  have behind {fault : Fault} (failed : Graph.ofScript script = .error fault) :
      ∃ statement, PastIf script statement ∧ fault = ⟨statement.note, .continuesPastIf⟩ := by
    obtain ⟨after, fails⟩ := Builder.ofScript_eq_error_iff.mp failed
    rcases Builder.fails_bind_iff.mp fails with failsDeclare | ⟨others, declared, runs, failsAdd⟩
    · have refused := Builder.fails_declare_start_iff.mp ⟨after, failsDeclare⟩
      cases declarations.symm.trans refused
    · exact Builder.failsOnly_pastIf (Script.flat_of_parse parsed) formed references runs fault after failsAdd
  refine ⟨⟨?_, ?_⟩, ?_⟩
  · rintro ⟨fault, failed⟩
    obtain ⟨statement, pastIf, _⟩ := behind failed
    exact ⟨statement, pastIf⟩
  · rintro ⟨statement, list, sequence, follows⟩
    cases built : Builder.rawGraph script with
    | error fault => exact ⟨fault, by rw [Graph.ofScript, built]; rfl⟩
    | ok graph =>
        have laid := Builder.laidOut_of_rawGraph built formed.forks
        have buildable := sequence.buildable fun root body listed => laid.layouts.buildable listed
        exact absurd follows buildable.not_followsIf
  · intro fault failed
    obtain ⟨statement, pastIf, rfl⟩ := behind failed
    exact ⟨rfl, rfl, statement, pastIf, rfl⟩

/-- In a sub, the last block of an `if` goes on behind another `if`. -/
def nestedIf : String :=
  "group A x; sub f if group(A) doc y; else if b doc u; else doc v; end doc w; end end call f;"

theorem exists_parse_nestedIf : ∃ script fault, Script.parse nestedIf = .ok script ∧
    checkDeclarations script = .ok () ∧ checkReferences script = .ok () ∧ Graph.ofScript script = .error fault :=
  exists_of_isBuilt?_eq_false (by decide +kernel)

theorem ofScript_fails_iff_pastIf_nested : ∃ script fault statement, Script.parse nestedIf = .ok script ∧
    checkDeclarations script = .ok () ∧ checkReferences script = .ok () ∧ Graph.ofScript script = .error fault ∧
      PastIf script statement ∧ fault.pos = statement.note := by
  obtain ⟨script, fault, parsed, declarations, references, failed⟩ := exists_parse_nestedIf
  obtain ⟨_, position⟩ := ofScript_fails_iff_pastIf parsed declarations references
  obtain ⟨_, _, statement, pastIf, same⟩ := position fault failed
  exact ⟨script, fault, statement, parsed, declarations, references, failed, pastIf, same⟩

/-! ## Assumptions of construction -/

/-- The cause is one for which construction refuses a parsed script. -/
def Script.Cause.isRefusal : Cause → Bool
  | .duplicateGroup _ | .duplicateSub _ | .unknownGroup _ | .unknownSub _ | .continuesPastIf => true
  | _ => false

namespace Builder

theorem failsOnly_declare {script : Program} {before : Builder} :
    FailsOnly (fun fault => fault.cause.isRefusal = true) (declare script) before := by
  induction script generalizing before with
  | nil => exact failsOnly_pure
  | cons statement rest ih =>
      cases statement with
      | group pos group =>
          refine FailsOnly.bind (fun fault after fails => ?_) fun _ _ _ => ih
          obtain ⟨_, rfl, _⟩ := fails_declareGroup_iff.mp fails
          rfl
      | sub pos name body =>
          refine FailsOnly.bind (fun fault after fails => ?_) fun _ _ _ => ih
          obtain ⟨_, rfl, _⟩ := fails_declareSub_iff.mp fails
          rfl
      | _ => exact failsOnly_bind_pure ih

theorem isRefusal_of_faultIn {scope : Scope} {body : List (Statement Pos)} {fault : Fault}
    (faultIn : FaultIn scope body fault) : fault.cause.isRefusal = true := by
  induction faultIn with
  | misses _ misses => cases misses <;> rfl
  | pastIf _ => rfl
  | inside _ _ _ ih => exact ih

/-- A script that a text denotes is only refused for what is written in it. -/
theorem failsOnly_buildScript {script : Program} (flat : Flat script) (formed : WellFormed script) :
    FailsOnly (fun fault => fault.cause.isRefusal = true) (buildScript script) start := by
  refine failsOnly_declare.bind fun others declared runs => ?_
  refine (failsOnly_addScript_of_declare (fun _ _ => Script.regular_of_mem_bodiesOf flat formed) runs).mono ?_
  rintro fault ⟨_, _, _, faultIn⟩
  exact isRefusal_of_faultIn faultIn

end Builder

/-- A parsed script meets what construction takes for granted: every `if` in it has several blocks, `else` is only the
last of them, the last is never a named condition, and declarations stand outermost. So construction never meets an
`if` without the blocks it asks for, a field for a node without data, or a declaration among other statements. -/
theorem parsed_script_fits_construction {source : String} {script : Program}
    (parsed : Script.parse source = .ok script) :
    (∀ note blocks, .choice note blocks ∈ Statement.walkBody script →
        2 ≤ blocks.length ∧ blocks.head?.map Block.condition ≠ some .otherwise ∧
          (∀ block ∈ blocks.dropLast, block.condition ≠ .otherwise) ∧
          ∀ name, blocks.getLast?.map Block.condition ≠ some (.named name)) ∧
      (∀ statement ∈ script, ∀ inner ∈ statement.walk.tail, inner.isDeclaration = false) ∧
      ∀ fault after, Builder.Fails (Builder.buildScript script) Builder.start fault after →
        fault.cause ≠ .malformedIf ∧ fault.cause ≠ .misplacedField ∧ fault.cause ≠ .declarationInside := by
  have formed := Script.wellFormed_of_parse parsed
  have flat := Script.flat_of_parse parsed
  refine ⟨fun note blocks member => ?_, flat, fun fault after fails => ?_⟩
  · have formedBlocks := formed _ member
    have several := Script.two_le_length_of_wellFormedBlocks formedBlocks
    have tested := Script.tested_of_wellFormedBlocks formedBlocks
    refine ⟨several, ?_, tested, Script.last_of_wellFormedBlocks formedBlocks⟩
    cases blocks with
    | nil => exact absurd several (Nat.not_succ_le_zero 1)
    | cons first rest =>
        have more : rest ≠ [] := List.length_pos_iff.mp (Nat.le_of_succ_le_succ several)
        rw [List.dropLast_cons_of_ne_nil more] at tested
        exact fun same => tested first List.mem_cons_self (Option.some.inj same)
  · have refusal : fault.cause.isRefusal = true := Builder.failsOnly_buildScript flat formed fault after fails
    refine ⟨?_, ?_, ?_⟩
    all_goals
      intro same
      rw [same] at refusal
      cases refusal

theorem parsed_script_fits_construction_nested : ∃ script fault after, Script.parse nestedIf = .ok script ∧
    Builder.Fails (Builder.buildScript script) Builder.start fault after ∧ fault.cause ≠ .malformedIf ∧
      fault.cause ≠ .misplacedField ∧ fault.cause ≠ .declarationInside := by
  obtain ⟨script, fault, parsed, _, _, failed⟩ := exists_parse_nestedIf
  obtain ⟨after, fails⟩ := Builder.ofScript_eq_error_iff.mp failed
  obtain ⟨_, _, never⟩ := parsed_script_fits_construction parsed
  exact ⟨script, fault, after, parsed, fails, never fault after fails⟩

end MissionGraph
