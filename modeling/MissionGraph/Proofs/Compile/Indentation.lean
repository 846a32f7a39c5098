import MissionGraph.Graph.Compile
import MissionGraph.Outline.Script
import MissionGraph.Proofs.Build.Carrying
import MissionGraph.Proofs.Script.Margins

/-!
# Indentation is cosmetic

The scripts that are written for one list of records with different widths of indentation have the same tokens on the
same lines, whatever the names in the records are. They compile to the same graph, or fail with the same message on
the same line.
-/

namespace MissionGraph

open Script (Fault Pos Program SameLines carry mapNotesBody)
open Text (Line renderLines)

/-! ## Compilation of texts with other margins -/

namespace Compilation

/-- What comes of a script that was parsed or refused. -/
def ofParsed : Except Fault Program → Compilation
  | .error fault => ⟨[], .error fault⟩
  | .ok script => .ofScript script

/-- The compilation with another place of its fault. -/
def mapPos (f : Pos → Pos) (compilation : Compilation) : Compilation :=
  ⟨compilation.warnings, carry f id compilation.result⟩

theorem ofScript_mapNotes (f : Pos → Pos) (script : Program) :
    ofScript (mapNotesBody f script) = (ofScript script).mapPos f := by
  unfold ofScript
  rw [Script.check_mapNotes, Graph.ofScript_mapNotes]
  cases Script.check script <;> rfl

theorem mapPos_ofParsed (f : Pos → Pos) (parsed : Except Fault Program) :
    (ofParsed parsed).mapPos f = ofParsed (carry f (mapNotesBody f) parsed) := by
  cases parsed with
  | error fault => rfl
  | ok script => exact (ofScript_mapNotes f script).symm

end Compilation

theorem compile_eq_ofParsed (source : String) : compile source = .ofParsed (Script.parse source) := by
  unfold compile
  cases Script.parse source <;> rfl

theorem mapPos_compile_of_sameLines {first second : String} (same : SameLines first.toList second.toList) :
    (compile first).mapPos Pos.lineOnly = (compile second).mapPos Pos.lineOnly := by
  rw [compile_eq_ofParsed, compile_eq_ofParsed, Compilation.mapPos_ofParsed, Compilation.mapPos_ofParsed, same.parse]

/-- Results that are equal up to the place in the line. -/
theorem carry_lineOnly_eq {first second : Except Fault Graph}
    (same : carry Pos.lineOnly id first = carry Pos.lineOnly id second) :
    (∃ graph, first = .ok graph ∧ second = .ok graph) ∨
      ∃ fault other, first = .error fault ∧ second = .error other ∧
        fault.cause.message = other.cause.message ∧ fault.pos.line = other.pos.line := by
  cases first with
  | ok graph =>
      cases second with
      | ok other =>
          cases same
          exact .inl ⟨_, rfl, rfl⟩
      | error other => cases same
  | error fault =>
      cases second with
      | ok graph => cases same
      | error other =>
          have moved : fault.mapPos Pos.lineOnly = other.mapPos Pos.lineOnly := Except.error.inj same
          refine .inr ⟨fault, other, rfl, rfl, ?_, congrArg (·.pos.line) moved⟩
          rw [← fault.cause.message_mapPos Pos.lineOnly, ← other.cause.message_mapPos Pos.lineOnly]
          exact congrArg (·.cause.message) moved

/-! ## Written lines -/

theorem toList_renderLines_cons (width : Nat) (line : Line) (lines : List Line) :
    (renderLines width (line :: lines)).toList =
      List.replicate (if line.text.isEmpty then 0 else width * line.level) ' ' ++
        (line.text.toList ++ '\n' :: (renderLines width lines).toList) := by
  rw [Text.renderLines_eq_join, Text.renderLines_eq_join, List.map_cons, String.join_cons, Line.render]
  split <;> simp [Text.Writer.margin]

/-- Behind a line feed, lines are the same for every width but for their margins. -/
theorem sameLines_renderLines (first second : Nat) (lines : List Line) :
    SameLines ('\n' :: (renderLines first lines).toList) ('\n' :: (renderLines second lines).toList) := by
  induction lines with
  | nil => exact .refl _
  | cons line rest ih =>
      rw [toList_renderLines_cons, toList_renderLines_cons]
      exact .margin _ _ (ih.append line.text.toList)

theorem Outline.Draft.sameLines_text (draft : Draft) (first second : Nat) :
    SameLines (draft.text first).toList (draft.text second).toList := by
  have title (width : Nat) : (draft.text width).toList =
      "# Vignette Info Script".toList ++ '\n' :: (renderLines width draft.lines.tail).toList :=
    toList_renderLines_cons width ⟨0, "# Vignette Info Script"⟩ draft.lines.tail
  rw [title, title]
  exact (sameLines_renderLines first second draft.lines.tail).append _

/-- Written with two widths of indentation, records give the same fault, or two scripts with the same warnings and the
same graph, or with the same message on the same line. -/
theorem compile_decompile_widths (records : List Record) (first second : Nat) :
    (∃ fault, Outline.decompile records first = .error fault ∧ Outline.decompile records second = .error fault) ∨
      ∃ text other, Outline.decompile records first = .ok text ∧ Outline.decompile records second = .ok other ∧
        (compile text).warnings = (compile other).warnings ∧
        ((∃ graph, (compile text).result = .ok graph ∧ (compile other).result = .ok graph) ∨
          ∃ fault fault', (compile text).result = .error fault ∧ (compile other).result = .error fault' ∧
            fault.cause.message = fault'.cause.message ∧ fault.pos.line = fault'.pos.line) := by
  unfold Outline.decompile Outline.decompileGraph
  cases Graph.ofRecords records with
  | error fault => exact .inl ⟨fault, rfl, rfl⟩
  | ok graph =>
      rw [Success.ok_bind, Success.ok_bind]
      cases Outline.Plan.ofGraph graph with
      | error fault => exact .inl ⟨fault, rfl, rfl⟩
      | ok plan =>
          have alike := mapPos_compile_of_sameLines ((Outline.Draft.ofPlan plan).sameLines_text first second)
          refine .inr ⟨_, _, rfl, rfl, ?_, ?_⟩
          · exact (congrArg Compilation.warnings alike :)
          · exact carry_lineOnly_eq (congrArg Compilation.result alike :)

end MissionGraph
