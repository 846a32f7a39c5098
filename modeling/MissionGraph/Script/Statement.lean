import MissionGraph.Mission.Field
import MissionGraph.Script.Token

/-!
# Statements

A script is a list of statements. Each statement carries a note: its place in the text for a parsed
script, nothing for a script that is about to be written.
-/

namespace MissionGraph.Script

open Mission (Field listText)

/-- The declaration of a group of factions. -/
structure Group where
  name : String
  factions : List String
deriving DecidableEq

namespace Group

/-- The declaration as it is written. -/
def text (group : Group) : String :=
  "group " ++ group.name ++ " " ++ listText group.factions ++ ";"

end Group

/-- What a block of an `if` tests. -/
inductive Condition where
  | named (name : String)
  | group (name : String)
  | otherwise
deriving DecidableEq

namespace Condition

/-- The condition as it is written after `if` or `elif`; the last resort is a word of its own. -/
def text : Condition → String
  | .named name => name
  | .group name => "group(" ++ name ++ ")"
  | .otherwise => "else"

/-- The condition tests for a group. -/
def isGroup : Condition → Bool
  | .group _ => true
  | _ => false

end Condition

mutual

/-- A statement with its note. -/
inductive Statement (α : Type) where
  | sub (note : α) (name : String) (body : List (Statement α))
  | group (note : α) (group : Group)
  | choice (note : α) (blocks : List (Block α))
  | call (note : α) (name : String)
  | unimplemented (note : α)
  | doc (note : α) (name : String)
  | field (note : α) (field : Field)

/-- A block of an `if`: its condition and the statements for it. -/
inductive Block (α : Type) where
  | mk (condition : Condition) (body : List (Statement α))

end

namespace Block

variable {α : Type}

def condition : Block α → Condition
  | .mk condition _ => condition

def body : Block α → List (Statement α)
  | .mk _ body => body

end Block

namespace Statement

variable {α : Type}

def note : Statement α → α
  | .sub note _ _ => note
  | .group note _ => note
  | .choice note _ => note
  | .call note _ => note
  | .unimplemented note => note
  | .doc note _ => note
  | .field note _ => note

mutual

/-- The statement and all statements inside it, each before those inside it. -/
def walk : Statement α → List (Statement α)
  | .sub note name body => .sub note name body :: walkBody body
  | .choice note blocks => .choice note blocks :: walkBlocks blocks
  | statement => [statement]

/-- All statements of a list and inside it, in the order of the text. -/
def walkBody : List (Statement α) → List (Statement α)
  | [] => []
  | statement :: rest => walk statement ++ walkBody rest

def walkBlocks : List (Block α) → List (Statement α)
  | [] => []
  | .mk _ body :: rest => walkBody body ++ walkBlocks rest

end

end Statement

/-- A parsed script. -/
abbrev Program := List (Statement Pos)

end MissionGraph.Script
