import MissionGraph.Graph.Search
import MissionGraph.Script.Fault
import MissionGraph.Script.Statement
import MissionGraph.Text.Style

/-!
# Checks of a script

Groups and subs are declared once, every use refers to a declaration, and no sub calls itself over any
number of steps. A sub that is never called is worth a warning.
-/

namespace MissionGraph.Script

/-- The name of the group that a statement declares. -/
def declaredGroup? {α : Type} : Statement α → Option String
  | .group _ group => some group.name
  | _ => none

/-- The name of the sub that a statement declares. -/
def declaredSub? {α : Type} : Statement α → Option String
  | .sub _ name _ => some name
  | _ => none

/-- The place and the target of a call. -/
def callOf? : Statement Pos → Option (Pos × String)
  | .call pos name => some (pos, name)
  | _ => none

/-- The calls of a list of statements and inside it, in the order of the text. -/
def callsIn (statements : List (Statement Pos)) : List (Pos × String) :=
  (Statement.walkBody statements).filterMap callOf?

/-- Fails at the first declaration of a name that is among the groups or subs seen before. -/
def checkNames (groups subs : List String) : Program → Except Fault Unit
  | [] => .ok ()
  | .group pos group :: rest =>
      if group.name ∈ groups then .error ⟨pos, .duplicateGroup group.name⟩
      else checkNames (group.name :: groups) subs rest
  | .sub pos name _ :: rest =>
      if name ∈ subs then .error ⟨pos, .duplicateSub name⟩
      else checkNames groups (name :: subs) rest
  | _ :: rest => checkNames groups subs rest

/-- Every group and every sub is declared once. -/
def checkDeclarations (script : Program) : Except Fault Unit :=
  checkNames [] [] script

/-- The fault of a group name that is not declared. -/
def groupFault? (groups : List String) (pos : Pos) (name : String) : Option Fault :=
  if name ∈ groups then none else some ⟨pos, .unknownGroup name⟩

/-- The fault of a statement that refers to something undeclared, apart from the statements in it. -/
def referenceFault? (groups subs : List String) : Statement Pos → Option Fault
  | .call pos name => if name ∈ subs then none else some ⟨pos, .unknownSub name⟩
  | .field pos field => field.groupName?.bind (groupFault? groups pos)
  | .choice pos blocks =>
      blocks.findSome? fun block =>
        match block.condition with
        | .group name => groupFault? groups pos name
        | _ => none
  | _ => none

/-- Every use of a group or sub refers to a declaration. -/
def checkReferences (script : Program) : Except Fault Unit :=
  let groups := script.filterMap declaredGroup?
  let subs := script.filterMap declaredSub?
  match (Statement.walkBody script).findSome? (referenceFault? groups subs) with
  | some fault => .error fault
  | none => .ok ()

/-- The calls in the body of the last sub with the given name. -/
def callsOfSub (script : Program) (name : String) : List (Pos × String) :=
  (script.reverse.findSome? fun
    | .sub _ declared body => if declared = name then some (callsIn body) else none
    | _ => none).getD []

/-- No sub calls itself, directly or through other subs. Subs are tried in the order of their names. -/
def checkRecursion (script : Program) : Except Fault Unit :=
  let names := (script.filterMap declaredSub?).eraseDups.mergeSort
  match Search.backEdge? (callsOfSub script) Prod.snd names with
  | some (pos, name) => .error ⟨pos, .recursiveCall name⟩
  | none => .ok ()

/-- The declared subs that no statement calls. -/
def unusedSubs (script : Program) : List String :=
  let called := (callsIn script).map Prod.snd
  (script.filterMap declaredSub?).filter fun name => name ∉ called

/-- The line that warns of a sub that is never called. -/
def unusedWarning (name : String) : String :=
  Text.warningLine ("sub `" ++ name ++ "` is never called")

/-- All checks; the result are the warnings. -/
def check (script : Program) : Except Fault (List String) := do
  checkDeclarations script
  checkReferences script
  checkRecursion script
  return (unusedSubs script).map unusedWarning

end MissionGraph.Script
