/-!
# Indented text

A writer adds text to a page. The first text on a line is preceded by blanks according to the level
of indentation; empty lines get none.
-/

namespace MissionGraph.Text

structure Writer where
  text : String
  width : Nat
  level : Nat
  atLineStart : Bool

namespace Writer

/-- An empty page on which a level is the given count of blanks. -/
def ofWidth (width : Nat) : Writer := ⟨"", width, 0, true⟩

def indent (writer : Writer) : Writer :=
  { writer with level := writer.level + 1 }

/-- One level less, if there is one. -/
def unindent (writer : Writer) : Writer :=
  { writer with level := writer.level - 1 }

/-- The blanks at the start of a line. -/
def margin (width level : Nat) : String :=
  String.ofList (List.replicate (width * level) ' ')

def append (writer : Writer) (text : String) : Writer :=
  if text.isEmpty then writer
  else
    { writer with
      text := writer.text ++ (if writer.atLineStart then margin writer.width writer.level else "") ++ text
      atLineStart := false }

/-- Adds a text and ends the line. -/
def appendLine (writer : Writer) (text : String) : Writer :=
  let written := writer.append text
  { written with text := written.text ++ "\n", atLineStart := true }

end Writer

/-- A line of text with its level of indentation. -/
structure Line where
  level : Nat
  text : String
deriving DecidableEq

namespace Line

/-- The line one level further in. -/
def deeper (line : Line) : Line :=
  { line with level := line.level + 1 }

/-- The line with its blanks in front and its end. -/
def render (width : Nat) (line : Line) : String :=
  (if line.text.isEmpty then "" else Writer.margin width line.level) ++ line.text ++ "\n"

/-- Writes a line at its own level. -/
def put (writer : Writer) (line : Line) : Writer :=
  { writer with level := line.level }.appendLine line.text

theorem text_put (writer : Writer) (line : Line) (fresh : writer.atLineStart = true) :
    (put writer line).text = writer.text ++ line.render writer.width := by
  by_cases empty : line.text.isEmpty = true
  · have nothing : line.text = "" := by simpa using empty
    simp [put, Writer.appendLine, Writer.append, render, nothing]
  · simp [put, Writer.appendLine, Writer.append, render, empty, fresh, String.append_assoc]

theorem atLineStart_put (writer : Writer) (line : Line) : (put writer line).atLineStart = true := rfl

theorem width_put (writer : Writer) (line : Line) : (put writer line).width = writer.width := by
  simp only [put, Writer.appendLine, Writer.append]
  split <;> rfl

end Line

/-- The text of a list of lines. -/
def renderLines (width : Nat) (lines : List Line) : String :=
  (lines.foldl Line.put (.ofWidth width)).text

/-- Lines are written one after the other. -/
theorem renderLines_eq_join (width : Nat) (lines : List Line) :
    renderLines width lines = String.join (lines.map (Line.render width)) := by
  suffices general : ∀ writer : Writer, writer.atLineStart = true → writer.width = width →
      (lines.foldl Line.put writer).text = writer.text ++ String.join (lines.map (Line.render width)) by
    simpa [renderLines, Writer.ofWidth] using general (.ofWidth width) rfl rfl
  induction lines with
  | nil =>
      intro writer _ _
      simp
  | cons line rest ih =>
      intro writer fresh same
      rw [List.foldl_cons, ih _ (Line.atLineStart_put writer line) (by rw [Line.width_put, same]),
        Line.text_put writer line fresh, same]
      simp [String.append_assoc]

end MissionGraph.Text
