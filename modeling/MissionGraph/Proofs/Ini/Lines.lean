import MissionGraph.Proofs.Ini.Values

/-!
# Lines of a section

How the lines that are written for a record are read: its header, its entries, and the numbers of nodes.
-/

namespace MissionGraph.Ini

open Text (Framed Plain)

/-- The text can stand between the commas of a line. -/
structure Piece (text : List Char) : Prop where
  framed : Framed text
  noComma : ',' ∉ text
  noComment : ';' ∉ text
  noFeed : '\n' ∉ text

/-- The text can stand in front of the sign of equality of a line. -/
structure Label (text : List Char) : Prop where
  framed : Framed text
  noEquals : '=' ∉ text
  noComment : ';' ∉ text
  noFeed : '\n' ∉ text
  noBracket : text.head? ≠ some '['

theorem piece_of_plain {text : List Char} (plain : Plain text) : Piece text :=
  ⟨plain.framed, plain.not_mem (by decide), plain.not_mem (by decide), plain.not_mem (by decide)⟩

theorem label_of_plain {text : List Char} (plain : Plain text) : Label text := by
  refine ⟨plain.framed, plain.not_mem (by decide), plain.not_mem (by decide), plain.not_mem (by decide), ?_⟩
  intro opening
  exact plain.not_mem (by decide) (List.mem_of_mem_head? opening)

/-- Pieces with commas and blanks between them, after a blank, are pieces with commas between them that
each start with a blank. -/
theorem space_cons_intercalate {piece : List Char} {pieces : List (List Char)} :
    ' ' :: [',', ' '].intercalate (piece :: pieces) = [','].intercalate ((piece :: pieces).map (' ' :: ·)) := by
  induction pieces generalizing piece with
  | nil => simp
  | cons next others ih =>
      rw [List.intercalate_cons_cons, List.map_cons, List.map_cons, List.intercalate_cons_cons,
        ← List.map_cons, ← ih]
      simp

theorem mem_intercalate {α : Type} {c : α} {between : List α} {pieces : List (List α)}
    (member : c ∈ between.intercalate pieces) : c ∈ between ∨ ∃ piece ∈ pieces, c ∈ piece := by
  induction pieces with
  | nil => simp at member
  | cons piece others ih =>
      cases others with
      | nil => exact .inr ⟨piece, List.mem_cons_self, by simpa using member⟩
      | cons next others =>
          rw [List.intercalate_cons_cons, List.append_assoc, List.mem_append, List.mem_append] at member
          rcases member with inPiece | inBetween | later
          · exact .inr ⟨piece, List.mem_cons_self, inPiece⟩
          · exact .inl inBetween
          · rcases ih later with inBetween | ⟨other, listed, inOther⟩
            · exact .inl inBetween
            · exact .inr ⟨other, List.mem_cons_of_mem _ listed, inOther⟩

theorem framed_intercalate {between : List Char} {pieces : List (List Char)} (some_piece : pieces ≠ [])
    (framed : ∀ piece ∈ pieces, Framed piece) : Framed (between.intercalate pieces) := by
  induction pieces with
  | nil => exact absurd rfl some_piece
  | cons piece others ih =>
      have first := framed piece List.mem_cons_self
      cases others with
      | nil => simpa using first
      | cons next others =>
          have later := ih (List.cons_ne_nil _ _) fun other member => framed other (List.mem_cons_of_mem _ member)
          rw [List.intercalate_cons_cons, List.append_assoc]
          exact first.append later between

/-- Pieces between commas are read one by one. -/
theorem readValues_intercalate {pieces : List (List Char)} (some_piece : pieces ≠ [])
    (arePieces : ∀ piece ∈ pieces, Piece piece) :
    readValues (' ' :: [',', ' '].intercalate pieces) = pieces.map readValue := by
  obtain ⟨piece, others, rfl⟩ := List.exists_cons_of_ne_nil some_piece
  have split : (' ' :: [',', ' '].intercalate (piece :: others)).splitOn ',' =
      (piece :: others).map (' ' :: ·) := by
    rw [space_cons_intercalate, List.splitOn_intercalate]
    · intro spaced member comma
      obtain ⟨inner, listed, rfl⟩ := List.mem_map.mp member
      rcases List.mem_cons.mp comma with impossible | inInner
      · exact absurd impossible (by decide)
      · exact (arePieces inner listed).noComma inInner
    · exact List.cons_ne_nil _ _
  have trimmed : ((piece :: others).map (' ' :: ·)).map Text.trim = piece :: others := by
    rw [List.map_map]
    refine (List.map_congr_left fun inner listed => ?_).trans (List.map_id _)
    exact Text.trim_space_cons (arePieces inner listed).framed
  have kept : (piece :: others).filter (· ≠ []) = piece :: others := by
    refine List.filter_eq_self.mpr fun inner listed => ?_
    simpa using (arePieces inner listed).framed.ne_nil
  rw [readValues, split, trimmed, kept]

/-- The text of an entry. -/
def entryLine (name : List Char) (pieces : List (List Char)) : List Char :=
  name ++ [' ', '=', ' '] ++ [',', ' '].intercalate pieces

theorem not_mem_entryLine {name : List Char} {pieces : List (List Char)} {mark : Char} (notInName : mark ∉ name)
    (notInPieces : ∀ piece ∈ pieces, mark ∉ piece) (other : mark ∉ [' ', '=', ',']) :
    mark ∉ entryLine name pieces := by
  intro member
  simp only [List.mem_cons, List.not_mem_nil, or_false, not_or] at other
  rw [entryLine, List.mem_append, List.mem_append] at member
  rcases member with (inName | inMiddle) | inPieces
  · exact notInName inName
  · simp only [List.mem_cons, List.not_mem_nil, or_false] at inMiddle
    rcases inMiddle with same | same | same
    · exact other.1 same
    · exact other.2.1 same
    · exact other.1 same
  · rcases mem_intercalate inPieces with inBetween | ⟨piece, listed, inPiece⟩
    · simp only [List.mem_cons, List.not_mem_nil, or_false] at inBetween
      rcases inBetween with same | same
      · exact other.2.2 same
      · exact other.1 same
    · exact notInPieces piece listed inPiece

/-- What is left of a line without its comment and its blanks is an entry if it starts with a label and the
sign of equality. -/
theorem readLine_of_label {text name values : List Char} (label : Label name)
    (body : Text.trim (Text.before ';' text) = (name ++ [' ']) ++ '=' :: values) :
    readLine text = .entry (String.ofList name) (readValues values) := by
  obtain ⟨c, rest, rfl, _⟩ := label.framed.starts
  have notHeader : Text.inside? '[' ']' ((c :: rest ++ [' ']) ++ '=' :: values) = none := by
    apply Text.inside?_of_ne
    rintro rfl
    exact label.noBracket rfl
  have parts : Text.cut? '=' ((c :: rest ++ [' ']) ++ '=' :: values) = some (c :: rest ++ [' '], values) := by
    apply Text.cut?_append
    intro member
    rcases List.mem_append.mp member with inName | isSpace
    · exact label.noEquals inName
    · exact absurd isSpace (by decide)
  have nonempty : (c :: rest ++ [' ']) ++ '=' :: values ≠ [] := List.cons_ne_nil _ _
  rw [readLine, body, if_neg nonempty, notHeader]
  simp only [parts]
  rw [Text.trim_concat_space label.framed]

/-- A line with a label and pieces is read as an entry. Without pieces it ends with a blank, which is
trimmed. -/
theorem readLine_entryLine {name : List Char} {pieces : List (List Char)} (label : Label name)
    (arePieces : ∀ piece ∈ pieces, Piece piece) :
    readLine (entryLine name pieces) = .entry (String.ofList name) (pieces.map readValue) := by
  have noComment : Text.before ';' (entryLine name pieces) = entryLine name pieces :=
    Text.before_of_not_mem (not_mem_entryLine label.noComment (fun piece listed => (arePieces piece listed).noComment)
      (by decide))
  by_cases some_piece : pieces = []
  · subst some_piece
    have equals : Framed ['='] := ⟨⟨'=', [], rfl, by decide⟩, ⟨[], '=', rfl, by decide⟩⟩
    have body : Text.trim (Text.before ';' (entryLine name [])) = (name ++ [' ']) ++ '=' :: [] := by
      have same : entryLine name [] = (name ++ ([' '] ++ ['='])) ++ [' '] := by simp [entryLine]
      rw [noComment, same, Text.trim_concat_space (label.framed.append equals [' '])]
      simp
    exact readLine_of_label label body
  · have framed : Framed (entryLine name pieces) := by
      rw [entryLine, List.append_assoc]
      exact label.framed.append (framed_intercalate some_piece fun piece listed => (arePieces piece listed).framed) _
    have body : Text.trim (Text.before ';' (entryLine name pieces)) =
        (name ++ [' ']) ++ '=' :: ' ' :: [',', ' '].intercalate pieces := by
      rw [noComment, framed.trim]
      simp [entryLine]
    rw [readLine_of_label label body, readValues_intercalate some_piece arePieces]

theorem readLine_header {word : List Char} (plain : Plain word) :
    readLine ('[' :: (word ++ [']'])) = .header (String.ofList word) := by
  have framed : Framed ('[' :: (word ++ [']'])) :=
    ⟨⟨'[', _, rfl, by decide⟩, ⟨'[' :: word, ']', rfl, by decide⟩⟩
  have noMark : ';' ∉ '[' :: (word ++ [']']) := by
    intro member
    rcases List.mem_cons.mp member with impossible | later
    · exact absurd impossible (by decide)
    · rcases List.mem_append.mp later with inWord | isClosing
      · exact plain.not_mem (by decide) inWord
      · exact absurd isClosing (by decide)
  rw [readLine, Text.before_of_not_mem noMark, framed.trim, if_neg framed.ne_nil, Text.inside?_brackets]
  simp only
  rw [plain.framed.trim]

theorem readLine_nil : readLine [] = .empty :=
  rfl

end MissionGraph.Ini
