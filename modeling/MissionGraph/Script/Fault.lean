import MissionGraph.Script.Token

/-!
# Faults of a script

Why a script is refused, and where. The wording of every message is in `Cause.message`.
-/

namespace MissionGraph.Script

/-- The places of a field value where only certain words can stand. -/
inductive Slot where
  | commTarget
  | commSource
  | offerMode
deriving DecidableEq

namespace Slot

def description : Slot → String
  | .commTarget => "comm_sequence target"
  | .commSource => "comm_sequence source"
  | .offerMode => "'append' or 'replace'"

end Slot

/-- Why a script is refused. -/
inductive Cause where
  /-- The text does not start a token. -/
  | unexpectedCharacter (c : Char)
  /-- The point of a number is followed by something else than a digit. -/
  | digitExpected (found : Char)
  /-- The text ends after the point of a number. -/
  | numberCutShort
  /-- There is no token to pass over. -/
  | nothingLeft
  /-- No statement starts with this token. -/
  | unexpected (text : String)
  /-- A declaration stands inside another statement. -/
  | nestedDeclaration (keyword : String)
  /-- The text ends inside a block. -/
  | missingEnd
  /-- A block follows the `else` block. -/
  | endExpected
  /-- An `if` has one block only. -/
  | loneIf
  /-- The last block of an `if` tests a named condition. -/
  | openElif (name : String)
  /-- Another class of token is needed here. -/
  | expected (kind : TokenKind) (found : Token)
  /-- None of the words for this place. -/
  | expectedWord (slot : Slot)
  /-- The integer needs more than 32 bits. -/
  | integerOutOfRange
  /-- The text of a number token denotes no number. -/
  | invalidNumber (text : String)
  | duplicateGroup (name : String)
  | duplicateSub (name : String)
  | unknownGroup (name : String)
  | unknownSub (name : String)
  /-- A sub calls itself, directly or through others. -/
  | recursiveCall (name : String)
  /-- A statement follows an `if`. -/
  | continuesPastIf
  /-- A declaration is met where statements are built. -/
  | declarationInside
  /-- The node to continue from is not in the graph. -/
  | missingNode (id : Nat)
  /-- An `if` does not have the blocks that the grammar asks for. -/
  | malformedIf
  /-- A field is to be put into a node that holds no data. -/
  | misplacedField
deriving DecidableEq

namespace Cause

def message : Cause → String
  | .unexpectedCharacter c => "Unexpected character '" ++ String.singleton c ++ "'"
  | .digitExpected found => "Expected digit after '.', found '" ++ String.singleton found ++ "'"
  | .numberCutShort => "Unexpected end of file in number"
  | .nothingLeft => "Unexpected end of file"
  | .unexpected text => "Unexpected '" ++ text ++ "'"
  | .nestedDeclaration keyword => "'" ++ keyword ++ "' can only appear in the top level"
  | .missingEnd => "Unexpected end of file, expected 'end'"
  | .endExpected => "Expected 'end'"
  | .loneIf => "if expecting elif or else"
  | .openElif name => "if expecting else or elif group(...) after elif " ++ name
  | .expected kind found => "Expected " ++ kind.description ++ ", found " ++ found.description
  | .expectedWord slot => "Expected " ++ slot.description
  | .integerOutOfRange => "Integer out of range"
  | .invalidNumber text => "Invalid number '" ++ text ++ "'"
  | .duplicateGroup name => "Duplicate group '" ++ name ++ "'"
  | .duplicateSub name => "Duplicate sub '" ++ name ++ "'"
  | .unknownGroup name => "Unknown group '" ++ name ++ "'"
  | .unknownSub name => "Unknown sub '" ++ name ++ "'"
  | .recursiveCall name => "Recursive call to sub '" ++ name ++ "'"
  | .continuesPastIf => "Control flow cannot continue past if"
  | .declarationInside => "Declarations can only appear in the top level"
  | .missingNode id => "Cannot find node " ++ Nat.repr id
  | .malformedIf => "if expecting elif or else"
  | .misplacedField => "field target is always a data node"

end Cause

/-- The place and the cause of a refusal. -/
structure Fault where
  pos : Pos
  cause : Cause
deriving DecidableEq

end MissionGraph.Script
