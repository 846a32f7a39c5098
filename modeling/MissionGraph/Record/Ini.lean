import MissionGraph.Record.Fault
import MissionGraph.Text.Blank
import MissionGraph.Text.Lines

/-!
# Records as INI text

Each record is a section: its kind in brackets, its number, its entries and its children, one on a
line. Reading allows blanks, comments after a semicolon and any letter case; whether a value is a
number, a truth value or a name is judged by its text.
-/

namespace MissionGraph.Ini

open Number (Single)

/-! ## Writing -/

def recordLines (record : Record) : List String :=
  ["[" ++ record.kind.word ++ "]", "node_id = " ++ Nat.repr record.id]
    ++ record.entries.map Entry.text
    ++ record.children.map fun child => "child_node = " ++ Nat.repr child

/-- The lines of all sections with an empty line between two of them. -/
def lines (records : List Record) : List String :=
  [""].intercalate (records.map recordLines)

/-- The text of all sections. -/
def write (records : List Record) : String :=
  String.join ((lines records).map (· ++ "\n"))

/-! ## Reading -/

/-- Why a line cannot be read. -/
inductive Cause where
  | unknownKind (word : String)
  | noNodeId (kind : RecordKind)
  | notAnEntry (line : String)
  | outsideSection
  | badId (name : String)
deriving DecidableEq

namespace Cause

def message : Cause → String
  | .unknownKind word => (GraphFault.unknownKind word).message
  | .noNodeId kind => "section [" ++ kind.word ++ "] has no node_id"
  | .notAnEntry line => "expected `name = value`, found `" ++ line ++ "`"
  | .outsideSection => "entry outside of a section"
  | .badId name => "`" ++ name ++ "` expects one non-negative integer"

end Cause

/-- The number of a line, counted from 1, and why it cannot be read. -/
structure Fault where
  line : Nat
  cause : Cause
deriving DecidableEq

namespace Fault

/-- The message with the number of the line in front. -/
def message (fault : Fault) : String :=
  "line " ++ Nat.repr fault.line ++ ": " ++ fault.cause.message

end Fault

/-- What a line is once its comment and the blanks around it are gone. -/
inductive Line where
  | empty
  | header (name : String)
  | entry (name : String) (values : List Value)
  | other (text : String)

/-- The value that a text denotes: an integer, a finite number or a truth value if it reads as one. -/
def readValue (text : List Char) : Value :=
  match Number.readInt32? text with
  | some value => .int value
  | none =>
      match (Single.read? text).filter Single.isFinite with
      | some value => .float value
      | none =>
          let word := String.ofList text
          if Text.sameLetters word "true" then .bool true
          else if Text.sameLetters word "false" then .bool false
          else .name word

/-- The values between commas; what is blank between two commas is no value. -/
def readValues (text : List Char) : List Value :=
  ((text.splitOn ',').map Text.trim).filter (· ≠ []) |>.map readValue

def readLine (text : List Char) : Line :=
  let body := Text.trim (Text.before ';' text)
  if body = [] then .empty
  else
    match Text.inside? '[' ']' body with
    | some name => .header (String.ofList (Text.trim name))
    | none =>
        match Text.cut? '=' body with
        | some (name, values) => .entry (String.ofList (Text.trim name)) (readValues values)
        | none => .other (String.ofList body)

/-- A section whose end has not been met yet. -/
structure Section where
  kind : RecordKind
  line : Nat
  id : Option NodeId
  entries : List Entry
  children : List NodeId

namespace Section

/-- The record of a complete section. -/
def finish (open_section : Section) : Except Fault Record :=
  match open_section.id with
  | some id => .ok ⟨open_section.kind, id, open_section.entries, open_section.children⟩
  | none => .error ⟨open_section.line, .noNodeId open_section.kind⟩

end Section

/-- The number that the values of an entry for a node must be. -/
def readId (line : Nat) (name : String) : List Value → Except Fault NodeId
  | [.int value] => if 0 ≤ value.toInt then .ok value.toInt.toNat else .error ⟨line, .badId name⟩
  | _ => .error ⟨line, .badId name⟩

/-- The section with a further entry. -/
def addEntry (line : Nat) (name : String) (values : List Value) (target : Section) :
    Except Fault Section :=
  if Text.sameLetters name "node_id" then
    (readId line name values).map fun id => { target with id := some id }
  else if Text.sameLetters name "child_node" then
    (readId line name values).map fun id => { target with children := target.children ++ [id] }
  else .ok { target with entries := target.entries ++ [⟨name, values⟩] }

/-- The records read so far and the section that is open. -/
structure Progress where
  records : List Record
  current : Option Section

namespace Progress

/-- Closes the open section. -/
def close (progress : Progress) : Except Fault (List Record) :=
  match progress.current with
  | some target => target.finish.map fun record => progress.records ++ [record]
  | none => .ok progress.records

/-- Goes on with a line. -/
def step (progress : Progress) (line : Nat) : Line → Except Fault Progress
  | .empty => .ok progress
  | .header name => do
      let records ← progress.close
      match RecordKind.ofWord? name with
      | some kind => return ⟨records, some ⟨kind, line, none, [], []⟩⟩
      | none => throw ⟨line, .unknownKind name⟩
  | .entry name values =>
      match progress.current with
      | some target => (addEntry line name values target).map fun next => { progress with current := some next }
      | none => .error ⟨line, .outsideSection⟩
  | .other text => .error ⟨line, .notAnEntry text⟩

end Progress

/-- Reads lines, the first of which has the given number. -/
def readLines (progress : Progress) (line : Nat) : List (List Char) → Except Fault (List Record)
  | [] => progress.close
  | text :: rest => do
      let next ← progress.step line (readLine text)
      readLines next (line + 1) rest

/-- The records of a text. -/
def read (text : String) : Except Fault (List Record) :=
  readLines ⟨[], none⟩ 1 (Text.lines text.toList)

end MissionGraph.Ini
