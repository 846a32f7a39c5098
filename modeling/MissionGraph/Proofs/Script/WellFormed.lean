import MissionGraph.Script.Scanner
import MissionGraph.Script.Statement

/-!
# Statements that a text can denote

The conditions on names, numbers and blocks that hold of every statement read from a text, and under
which a statement can be written down.
-/

namespace MissionGraph

open Number (Single)

/-- The text is a name of a script. -/
def Script.isName (text : String) : Bool :=
  match text.toList with
  | [] => false
  | c :: rest => isNameStart c && rest.all isNamePart

/-- The number has no minus in front and is defined. -/
def Number.Single.unsigned : Single → Bool
  | .finite value => !value.negative
  | .infinite negative => !negative
  | .undefined => false

namespace Mission

open Script (isName)

namespace Message

def wellFormed (message : Message) : Bool :=
  0 ≤ message.id.toInt && message.args.all isName

end Message

namespace Objective

def wellFormed (objective : Objective) : Bool :=
  isName objective.target && objective.message.wellFormed

end Objective

namespace OfferItem

/-- The names in the message must not be taken for the plurality of a further item. -/
def wellFormed (item : OfferItem) : Bool :=
  item.message.wellFormed && item.message.args.all fun arg => (Plurality.ofMarker? arg).isNone

end OfferItem

namespace Offer

def wellFormed (offer : Offer) : Bool :=
  !offer.items.isEmpty && offer.items.all OfferItem.wellFormed

end Offer

namespace Comm

def numbers (comm : Comm) : List Single :=
  [comm.first, comm.second, comm.third]

def wellFormed (comm : Comm) : Bool :=
  isName comm.event && comm.numbers.all Single.unsigned && isName comm.comm

end Comm

namespace Difficulty

def numbers (difficulty : Difficulty) : List Single :=
  [difficulty.lower, difficulty.upper]

def wellFormed (difficulty : Difficulty) : Bool :=
  difficulty.numbers.all Single.unsigned

end Difficulty

namespace Field

def wellFormed : Field → Bool
  | .comm value => value.wellFormed
  | .failure value => value.wellFormed
  | .reward value => value.wellFormed
  | .objective value => value.wellFormed
  | .offers entries => !entries.isEmpty && entries.all Offer.wellFormed
  | .difficulty value => value.wellFormed
  | .weight value => 0 ≤ value.toInt
  | .zones names => !names.isEmpty && names.all isName
  | .offerGroup name => isName name
  | .hostileGroup name => isName name

/-- The numbers of the field that need not be whole. -/
def numbers : Field → List Single
  | .comm value => value.numbers
  | .difficulty value => value.numbers
  | _ => []

end Field

end Mission

namespace Script

namespace Group

def wellFormed (group : Group) : Bool :=
  isName group.name && !group.factions.isEmpty && group.factions.all isName

end Group

namespace Condition

/-- A named condition must not be taken for the test of a group. -/
def wellFormed : Condition → Bool
  | .named name => isName name && name != "group"
  | .group name => isName name
  | .otherwise => true

def isNamed : Condition → Bool
  | .named _ => true
  | _ => false

end Condition

variable {α : Type}

/-- The blocks of an `if`: at least two, `else` only as the last, and the last not a named condition. -/
def wellFormedBlocks : List (Block α) → Bool
  | [] => false
  | [_] => false
  | [first, last] =>
      first.condition.wellFormed && first.condition != .otherwise && last.condition.wellFormed
        && !last.condition.isNamed
  | first :: rest => first.condition.wellFormed && first.condition != .otherwise && wellFormedBlocks rest

theorem two_le_length_of_wellFormedBlocks {blocks : List (Block α)} (formed : wellFormedBlocks blocks = true) :
    2 ≤ blocks.length := by
  match blocks with
  | [] => cases formed
  | [_] => cases formed
  | _ :: _ :: _ => exact Nat.le_add_left _ _

theorem wellFormedBlocks_pair {first last : Block α} (formed : first.condition.wellFormed = true)
    (tested : first.condition ≠ .otherwise) (lastFormed : last.condition.wellFormed = true)
    (notNamed : last.condition.isNamed = false) : wellFormedBlocks [first, last] = true := by
  simp [wellFormedBlocks, formed, tested, lastFormed, notNamed]

/-- One more block with a test can stand in front of blocks. -/
theorem wellFormedBlocks_cons {block : Block α} {blocks : List (Block α)}
    (formed : block.condition.wellFormed = true) (tested : block.condition ≠ .otherwise)
    (later : wellFormedBlocks blocks = true) : wellFormedBlocks (block :: blocks) = true := by
  match blocks, two_le_length_of_wellFormedBlocks later with
  | _ :: _ :: _, _ => simp [wellFormedBlocks, formed, tested, later]

/-- The later blocks of an `if` with more than two blocks could stand alone. -/
theorem wellFormedBlocks_tail {block : Block α} {blocks : List (Block α)}
    (formed : wellFormedBlocks (block :: blocks) = true) (several : 2 ≤ blocks.length) :
    wellFormedBlocks blocks = true := by
  match blocks, several with
  | _ :: _ :: _, _ =>
      simp only [wellFormedBlocks, Bool.and_eq_true] at formed
      exact formed.2

theorem condition_wellFormed {blocks : List (Block α)} (formed : wellFormedBlocks blocks = true)
    {block : Block α} (member : block ∈ blocks) : block.condition.wellFormed = true := by
  fun_induction wellFormedBlocks blocks with
  | case1 => cases member
  | case2 _ => cases formed
  | case3 first last =>
      simp only [Bool.and_eq_true] at formed
      obtain ⟨⟨⟨firstFormed, _⟩, lastFormed⟩, _⟩ := formed
      rcases List.mem_cons.mp member with rfl | later
      · exact firstFormed
      · rwa [List.mem_singleton.mp later]
  | case4 first rest _ _ ih =>
      simp only [Bool.and_eq_true] at formed
      obtain ⟨⟨firstFormed, _⟩, restFormed⟩ := formed
      rcases List.mem_cons.mp member with rfl | later
      · exact firstFormed
      · exact ih restFormed later

/-- All blocks but the last test something. -/
theorem tested_of_wellFormedBlocks {blocks : List (Block α)} (formed : wellFormedBlocks blocks = true) :
    ∀ block ∈ blocks.dropLast, block.condition ≠ .otherwise := by
  fun_induction wellFormedBlocks blocks with
  | case1 => cases formed
  | case2 _ => cases formed
  | case3 first last =>
      simp only [Bool.and_eq_true, bne_iff_ne] at formed
      exact List.forall_mem_singleton.mpr formed.1.1.2
  | case4 first rest notLone _ ih =>
      simp only [Bool.and_eq_true, bne_iff_ne] at formed
      rw [List.dropLast_cons_of_ne_nil notLone]
      exact List.forall_mem_cons.mpr ⟨formed.1.2, ih formed.2⟩

theorem last_of_wellFormedBlocks {blocks : List (Block α)} (formed : wellFormedBlocks blocks = true)
    (name : String) : blocks.getLast?.map Block.condition ≠ some (.named name) := by
  fun_induction wellFormedBlocks blocks with
  | case1 => cases formed
  | case2 _ => cases formed
  | case3 first last =>
      intro isNamed
      have lastNamed : last.condition = .named name := Option.some.inj isNamed
      simp [lastNamed, Condition.isNamed] at formed
  | case4 first rest notLone _ ih =>
      simp only [Bool.and_eq_true] at formed
      obtain ⟨next, others, rfl⟩ := List.exists_cons_of_ne_nil notLone
      rw [List.getLast?_cons_cons]
      exact ih formed.2

namespace Statement

/-- The statement can be written down, apart from the statements inside it. -/
def wellFormed : Statement α → Bool
  | .sub _ name _ => isName name
  | .group _ declared => declared.wellFormed
  | .choice _ blocks => wellFormedBlocks blocks
  | .call _ name => isName name
  | .unimplemented _ => true
  | .doc _ name => isName name
  | .field _ value => value.wellFormed

/-- The statement declares a group or a sub. -/
def isDeclaration : Statement α → Bool
  | .sub _ _ _ => true
  | .group _ _ => true
  | _ => false

end Statement

/-- All statements of a list and inside it can be written down. -/
def WellFormed (statements : List (Statement α)) : Prop :=
  ∀ statement ∈ Statement.walkBody statements, statement.wellFormed = true

/-- No statement of the list or inside it is a declaration. -/
def Undeclaring (statements : List (Statement α)) : Prop :=
  ∀ statement ∈ Statement.walkBody statements, statement.isDeclaration = false

/-- There are no declarations inside other statements. -/
def Flat (script : List (Statement α)) : Prop :=
  ∀ statement ∈ script, ∀ inner ∈ statement.walk.tail, inner.isDeclaration = false

end Script

end MissionGraph
