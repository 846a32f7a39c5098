import MissionGraph.Record.Basic

/-!
# Records as a drawing

The text of a drawing in the DOT language: a node for each record, labelled with its entries, and an
arrow for each child. The two arrows of a decision are labelled yes and no.
-/

namespace MissionGraph.Dot

def shape : RecordKind → String
  | .data => "box"
  | .decision => "diamond"
  | .documentation => "note"

/-- Quotes inside a label are preceded by a backslash. -/
def escape (text : String) : String :=
  String.ofList (text.toList.flatMap fun c => if c = '"' then ['\\', '"'] else [c])

/-- The number and the entries of a record, divided by line breaks of the drawing. -/
def label (record : Record) : String :=
  Nat.repr record.id ++ String.join (record.entries.map fun entry => "\\n" ++ entry.text)

def nodeLine (record : Record) : String :=
  "    n" ++ Nat.repr record.id ++ " [shape=" ++ shape record.kind ++ ", label=\""
    ++ escape (label record) ++ "\"];"

def arrow (source target : NodeId) : String :=
  "    n" ++ Nat.repr source ++ " -> n" ++ Nat.repr target

/-- The arrows of a decision: yes to its first child, no to all others. -/
def decisionArrows (source : NodeId) : List NodeId → List String
  | [] => []
  | first :: others =>
      (arrow source first ++ " [label=\"yes\"];")
        :: others.map fun child => arrow source child ++ " [label=\"no\"];"

def arrowLines (record : Record) : List String :=
  match record.kind with
  | .decision => decisionArrows record.id record.children
  | _ => record.children.map fun child => arrow record.id child ++ ";"

def lines (records : List Record) : List String :=
  ["digraph vignette \x7b", "    node [shape=box, fontname=monospace];"]
    ++ records.map nodeLine ++ records.flatMap arrowLines ++ ["\x7d"]

/-- The text of the drawing. -/
def write (records : List Record) : String :=
  String.join ((lines records).map (· ++ "\n"))

end MissionGraph.Dot
