import MissionGraph.Script.Scanner
import MissionGraph.Text.Case

/-!
# A reader with one token of look-ahead

The reader holds at most one scanned token. Looking at the current token keeps it, passing over it
drops it. After a fault it goes on from the place where scanning stopped.
-/

namespace MissionGraph.Script

structure Reader where
  cursor : Cursor
  held : Option Token

namespace Reader

/-- The reader at the start of a text. -/
def ofText (text : String) : Reader := ⟨.ofText text, none⟩

/-- The current token, scanned now unless it is held already. -/
def current (reader : Reader) : Except Fault Token × Reader :=
  match reader.held with
  | some token => (.ok token, reader)
  | none =>
      match reader.cursor.scan with
      | .token token next => (.ok token, ⟨next, some token⟩)
      | .endOfFile pos => (.ok (.endOfFile pos), ⟨⟨[], pos⟩, some (.endOfFile pos)⟩)
      | .fault fault next => (.error fault, ⟨next, none⟩)

/-- Passes over the current token; the end of the text cannot be passed. -/
def advance (reader : Reader) : Except Fault Unit × Reader :=
  match reader.current with
  | (.ok token, reader) =>
      if token.kind = .endOfFile then (.error ⟨token.pos, .nothingLeft⟩, reader)
      else (.ok (), { reader with held := none })
  | (.error fault, reader) => (.error fault, reader)

/-- Whether the current token is the given word, up to letter case if the flag is set. -/
def isWord (reader : Reader) (word : String) (ignoreCase : Bool) : Except Fault Bool × Reader :=
  match reader.current with
  | (.ok token, reader) =>
      let same := if ignoreCase then Text.sameLetters token.text word else token.text == word
      (.ok (token.kind == .identifier && same), reader)
  | (.error fault, reader) => (.error fault, reader)

end Reader

end MissionGraph.Script
