/-!
# Lines of a text

A line ends at a line feed. A text that ends in a line feed has no further, empty line after it.
-/

namespace MissionGraph.Text

/-- The lines of a text without their line feeds. -/
def lines : List Char → List (List Char)
  | [] => []
  | c :: rest =>
      if c = '\n' then [] :: lines rest
      else
        match lines rest with
        | [] => [[c]]
        | line :: others => (c :: line) :: others

/-- The text before the first occurrence of the mark, or the whole text. -/
def before (mark : Char) (text : List Char) : List Char :=
  text.takeWhile (· != mark)

/-- The text before and the text after the first occurrence of the mark, if it occurs. -/
def cut? (mark : Char) (text : List Char) : Option (List Char × List Char) :=
  match text.dropWhile (· != mark) with
  | [] => none
  | _ :: rest => some (before mark text, rest)

/-- What stands between an opening and a closing mark at the two ends of the text. -/
def inside? (opening closing : Char) : List Char → Option (List Char)
  | [] => none
  | c :: rest =>
      if c = opening then
        match rest.reverse with
        | last :: middle => if last = closing then some middle.reverse else none
        | [] => none
      else none

end MissionGraph.Text
