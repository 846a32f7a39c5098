/-!
# Terminal styles

Escape sequences that colour a piece of text on a terminal.
-/

namespace MissionGraph.Text

/-- The text between the sequence that turns a style on and the one that turns all styles off. -/
def styled (style text : String) : String :=
  "\x1b[" ++ style ++ "m" ++ text ++ "\x1b[0m"

def yellow : String → String := styled "33"

def red : String → String := styled "31"

def grey : String → String := styled "90"

/-- The line of a warning. -/
def warningLine (text : String) : String :=
  yellow "warning" ++ ": " ++ text

/-- The line of an error. -/
def errorLine (text : String) : String :=
  red "error" ++ ": " ++ text

end MissionGraph.Text
