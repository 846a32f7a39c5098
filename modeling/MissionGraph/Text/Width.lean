import MissionGraph.Text.Attached
import MissionGraph.Text.Wide

/-!
# Widths of characters

How many columns of a terminal a character takes, by the character properties of Unicode 15.1. Every
character counts by itself, also where a terminal would join it with its neighbours.
-/

namespace MissionGraph.Text

/-- The character lies in one of the runs of code points. -/
def inRuns (runs : List (Nat × Nat)) (c : Char) : Bool :=
  runs.any fun (first, last) => first ≤ c.toNat && c.toNat ≤ last

/-- The character only controls the terminal. -/
def isControl (c : Char) : Bool :=
  c.toNat < 0x20 || (0x7F ≤ c.toNat && c.toNat < 0xA0)

/-- Letters and signs of Khmer that are written as two or three letters. -/
def writtenOut? (c : Char) : Option Nat :=
  if c = '\u17A4' then some 2
  else if c = '\u17D8' then some 3
  else none

/-- The columns that a character takes. A mark that is attached has none, even if it belongs to a
script of wide characters. -/
def charWidth (c : Char) : Nat :=
  match writtenOut? c with
  | some columns => columns
  | none =>
      if isControl c || inRuns attachedRuns c then 0
      else if inRuns wideRuns c then 2
      else 1

/-- The columns that a text takes. -/
def width (text : List Char) : Nat :=
  text.foldl (fun columns c => columns + charWidth c) 0

end MissionGraph.Text
