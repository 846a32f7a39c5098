import MissionGraph.Script.Statement
import MissionGraph.Text.Writer

/-!
# From statements to lines

The lines of a script. Blocks are one level further in than the words around them, and so are the
entries of an `offer_text` field, which is the only field with more than one line.
-/

namespace MissionGraph.Script

open Mission (Field Offer)
open Text (Line)

/-- The entries of an `offer_text` field with commas between them. -/
def offerLines : List Offer → List String
  | [] => []
  | [last] => [last.text]
  | offer :: rest => (offer.text ++ ",") :: offerLines rest

/-- The lines of a field. -/
def fieldLines : Field → List Line
  | .offers entries =>
      ⟨0, "offer_text ("⟩ :: (offerLines entries).map (Line.mk 1) ++ [⟨0, ");"⟩]
  | field => [⟨0, field.text ++ ";"⟩]

/-- The line above a block of an `if`. -/
def blockHead (first : Bool) (condition : Condition) : String :=
  match condition with
  | .otherwise => "else"
  | condition => (if first then "if " else "elif ") ++ condition.text

namespace Statement

variable {α : Type}

mutual

/-- The lines of a statement at the outermost level. -/
def lines : Statement α → List Line
  | .sub _ name body =>
      ⟨0, "sub " ++ name⟩ :: (bodyLines body).map Line.deeper ++ [⟨0, "end"⟩]
  | .group _ declared => [⟨0, declared.text⟩]
  | .choice _ blocks => blockLines true blocks ++ [⟨0, "end"⟩]
  | .call _ name => [⟨0, "call " ++ name ++ ";"⟩]
  | .unimplemented _ => [⟨0, "err_unimplemented;"⟩]
  | .doc _ name => [⟨0, "doc " ++ name ++ ";"⟩]
  | .field _ value => fieldLines value

/-- The lines of statements one after the other. -/
def bodyLines : List (Statement α) → List Line
  | [] => []
  | statement :: rest => statement.lines ++ bodyLines rest

/-- The lines of the blocks of an `if`; the flag marks the first of them. -/
def blockLines (first : Bool) : List (Block α) → List Line
  | [] => []
  | .mk condition body :: rest =>
      ⟨0, blockHead first condition⟩ :: (bodyLines body).map Line.deeper ++ blockLines false rest

end

end Statement

end MissionGraph.Script
