import MissionGraph.Script.Fault
import MissionGraph.Text.Lines
import MissionGraph.Text.Style
import MissionGraph.Text.Width

/-!
# Diagnostics

A refusal of a script as the user sees it: on one line, or with the line of the text that it is about
and a mark below the place.
-/

namespace MissionGraph.Script

open Text (styled)

/-- A line of a text with the place in it that is marked, counted in characters from the left. -/
structure Excerpt where
  line : Nat
  text : List Char
  mark : Nat
deriving DecidableEq

namespace Excerpt

/-- The line without the carriage returns at its end. -/
def trimReturns (line : List Char) : List Char :=
  (line.reverse.dropWhile (· == '\r')).reverse

/-- Marks a place in a line. A place after the end is moved to the end, where the line gets a blank for
the mark. -/
def ofLine (number column : Nat) (line : List Char) : Excerpt :=
  let text := trimReturns line
  let mark := min (column - 1) text.length
  ⟨number, if mark = text.length then text ++ [' '] else text, mark⟩

/-- The line of a text that a place lies in, if there is such a line. -/
def at? (source : String) (pos : Pos) : Option Excerpt :=
  match pos.line with
  | 0 => none
  | before + 1 => (Text.lines source.toList)[before]?.map (ofLine pos.line pos.column)

/-- The columns to the left of the mark. -/
def columnsBefore (excerpt : Excerpt) : Nat :=
  Text.width (excerpt.text.take excerpt.mark)

/-- The columns that the mark takes. -/
def markColumns (excerpt : Excerpt) : Nat :=
  Text.width ((excerpt.text.drop excerpt.mark).take 1)

end Excerpt

/-- A message about a place in a named source. -/
structure Diagnostic where
  source : String
  pos : Pos
  message : String
deriving DecidableEq

namespace Diagnostic

def ofFault (source : String) (fault : Fault) : Diagnostic :=
  ⟨source, fault.pos, fault.cause.message⟩

/-- The diagnostic on one line. -/
def text (diagnostic : Diagnostic) : String :=
  diagnostic.source ++ ":" ++ Nat.repr diagnostic.pos.line ++ ":" ++ Nat.repr diagnostic.pos.column
    ++ ": " ++ diagnostic.message

/-- The style of what is wrong. -/
def alarm : String → String := styled "1;38;5;9"

/-- The style of the frame around a line. -/
def frame : String → String := styled "1;38;5;12"

def bold : String → String := styled "1"

def blanks (count : Nat) : String :=
  String.ofList (List.replicate count ' ')

def title : String :=
  alarm "error" ++ ": " ++ bold "compile error"

/-- The lines that show an excerpt with the message beside its mark. -/
def excerptLines (diagnostic : Diagnostic) (excerpt : Excerpt) : List String :=
  let number := Nat.repr excerpt.line
  let margin := blanks number.length
  let bar := frame (margin ++ " |")
  let carets := String.ofList (List.replicate excerpt.markColumns '^')
  let label := if diagnostic.message.isEmpty then "" else " " ++ alarm diagnostic.message
  [margin ++ frame "-->" ++ " " ++ diagnostic.source ++ ":" ++ number ++ ":"
      ++ Nat.repr (excerpt.mark + 1),
    bar,
    frame (number ++ " |") ++ " " ++ String.ofList excerpt.text,
    bar ++ alarm (blanks (1 + excerpt.columnsBefore) ++ carets) ++ label,
    bar]

/-- The diagnostic with the line of the source that it is about. -/
def snippet (diagnostic : Diagnostic) (source : String) : String :=
  "\n".intercalate
    (title :: ((Excerpt.at? source diagnostic.pos).map diagnostic.excerptLines).getD [])

end Diagnostic

end MissionGraph.Script
