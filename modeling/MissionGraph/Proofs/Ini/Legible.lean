import MissionGraph.Proofs.Ini.Sections

/-!
# Records that are read as they were written

Which records come back from their text: the numbers of nodes fit into 32 bits, names of entries and values
keep clear of the marks that divide a line, numbers are finite, and no name is judged to be something else.
Such records come back in the same order with the same values; only a number without a fraction comes back
as an integer if it is small enough.
-/

namespace MissionGraph

open Number (Single)

namespace Ini

instance (text : List Char) : Decidable (Piece text) :=
  decidable_of_iff (Text.Framed text ∧ ',' ∉ text ∧ ';' ∉ text ∧ '\n' ∉ text)
    ⟨fun ⟨framed, noComma, noComment, noFeed⟩ => ⟨framed, noComma, noComment, noFeed⟩,
      fun piece => ⟨piece.framed, piece.noComma, piece.noComment, piece.noFeed⟩⟩

instance (text : List Char) : Decidable (Label text) :=
  decidable_of_iff (Text.Framed text ∧ '=' ∉ text ∧ ';' ∉ text ∧ '\n' ∉ text ∧ text.head? ≠ some '[')
    ⟨fun ⟨framed, noEquals, noComment, noFeed, noBracket⟩ => ⟨framed, noEquals, noComment, noFeed, noBracket⟩,
      fun label => ⟨label.framed, label.noEquals, label.noComment, label.noFeed, label.noBracket⟩⟩

/-- The text can stand between commas and reads neither as a number nor as a truth value. -/
def IsWord (text : String) : Prop :=
  Piece text.toList ∧ Number.readInt32? text.toList = none ∧
    (Single.read? text.toList).filter Single.isFinite = none ∧ Text.sameLetters text "true" = false ∧
    Text.sameLetters text "false" = false

instance (text : String) : Decidable (IsWord text) :=
  inferInstanceAs (Decidable (_ ∧ _ ∧ _ ∧ _ ∧ _))

end Ini

/-- The value can be told from its text, the sort of numbers apart. -/
def Value.Legible : Value → Prop
  | .int _ => True
  | .float value => value.isFinite = true
  | .bool _ => True
  | .name text => Ini.IsWord text

instance (value : Value) : Decidable value.Legible :=
  match value with
  | .int _ => .isTrue trivial
  | .float value => inferInstanceAs (Decidable (value.isFinite = true))
  | .bool _ => .isTrue trivial
  | .name text => inferInstanceAs (Decidable (Ini.IsWord text))

/-- The entry can be told from its line, and its name is not that of the number of a node. -/
def Entry.Legible (entry : Entry) : Prop :=
  Ini.Label entry.name.toList ∧ Text.sameLetters entry.name "node_id" = false ∧
    Text.sameLetters entry.name "child_node" = false ∧ ∀ value ∈ entry.values, value.Legible

instance (entry : Entry) : Decidable entry.Legible :=
  inferInstanceAs (Decidable (_ ∧ _ ∧ _ ∧ ∀ value ∈ entry.values, value.Legible))

/-- The numbers of nodes fit into 32 bits, and the entries can be told from their lines. -/
def Record.Legible (record : Record) : Prop :=
  (record.id : Nat) < 2 ^ 31 ∧ (∀ child ∈ record.children, (child : Nat) < 2 ^ 31) ∧
    ∀ entry ∈ record.entries, entry.Legible

instance (record : Record) : Decidable record.Legible :=
  inferInstanceAs (Decidable (_ ∧ (∀ child ∈ record.children, (child : Nat) < 2 ^ 31) ∧
    ∀ entry ∈ record.entries, entry.Legible))

/-- The value as it comes back: a number whose text is that of a 32-bit integer is this integer. -/
def Value.wholeAsInt : Value → Value
  | .float value =>
      match Number.readInt32? value.text.toList with
      | some whole => .int whole
      | none => .float value
  | value => value

namespace Ini

theorem piece_of_legible {value : Value} (legible : value.Legible) : Piece value.text.toList := by
  cases value with
  | int value => exact piece_of_plain (plain_intText _)
  | float value =>
      cases value with
      | finite value =>
          rw [Value.text, Single.text, String.toList_ofList]
          exact piece_of_plain (plain_finite value)
      | infinite negative => cases legible
      | undefined => cases legible
  | bool value => cases value <;> decide
  | name text => exact legible.1

/-- A legible value comes back from its text. -/
theorem reread_of_legible {value : Value} (legible : value.Legible) : reread value = value.wholeAsInt := by
  cases value with
  | int value => exact rereads_reread.int value
  | float value =>
      cases value with
      | finite value =>
          have back := value.read?_text
          rw [reread, Value.text, Value.wholeAsInt, Single.text, String.toList_ofList, readValue]
          cases Number.readInt32? value.text with
          | some whole => rfl
          | none =>
              simp only [back]
              rfl
      | infinite negative => cases legible
      | undefined => cases legible
  | bool value => exact rereads_reread.bool value
  | name text =>
      obtain ⟨_, notInteger, notNumber, notTrue, notFalse⟩ := legible
      simp [reread, Value.text, readValue, notInteger, notNumber, notTrue, notFalse, Value.wholeAsInt]

theorem lined_of_legible {entry : Entry} (legible : entry.Legible) : entry.Lined := by
  obtain ⟨label, notId, notChild, values⟩ := legible
  exact ⟨label, notId, notChild, fun value listed => piece_of_legible (values value listed)⟩

theorem mapValues_reread {record : Record} (legible : record.Legible) :
    record.mapValues reread = record.mapValues Value.wholeAsInt := by
  obtain ⟨_, _, entries⟩ := legible
  have same : record.entries.map (Entry.mapValues reread) = record.entries.map (Entry.mapValues Value.wholeAsInt) := by
    refine List.map_congr_left fun entry isEntry => ?_
    obtain ⟨_, _, _, values⟩ := entries entry isEntry
    have sameValues := List.map_congr_left fun value listed => reread_of_legible (values value listed)
    rw [Entry.mapValues, Entry.mapValues, sameValues]
  rw [Record.mapValues, Record.mapValues, same]

/-- Legible records are read back from their text in the same order, with their kinds, numbers and entries;
the only change is that a number whose text is that of a 32-bit integer comes back as this integer. -/
theorem read_write_of_legible {records : List Record} (legible : ∀ record ∈ records, record.Legible) :
    read (write records) = .ok (records.map (Record.mapValues Value.wholeAsInt)) := by
  have lined (record : Record) (member : record ∈ records) (entry : Entry) (isEntry : entry ∈ record.entries) :
      entry.Lined :=
    lined_of_legible ((legible record member).2.2 entry isEntry)
  have success := read_write lined (fun record member => (legible record member).1)
    fun record member => (legible record member).2.1
  rw [success, List.map_congr_left fun record member => mapValues_reread (legible record member)]

/-- Records with an entry without values, a name that starts with a digit and has blanks inside, the word for
an infinite number, a negative zero and numbers with and without a fraction. -/
def mixed : List Record :=
  [⟨.data, 2147483647,
      [⟨"odd name, [1]", []⟩,
        ⟨"Difficulty", [.float (.ofInt 2), .float (.ofDecimal ⟨true, 25, -1⟩), .float (.ofDecimal ⟨false, 1, 10⟩)]⟩,
        ⟨"x", [.name "2 = two", .name "inf", .bool true, .int (-7), .float (.ofDecimal ⟨true, 0, 0⟩)]⟩], [0, 5, 0]⟩,
    ⟨.decision, 0, [], []⟩]

theorem read_write_of_legible_mixed : mixed.map (Record.mapValues Value.wholeAsInt) ≠ mixed ∧
    read (write mixed) = .ok (mixed.map (Record.mapValues Value.wholeAsInt)) :=
  ⟨by decide +kernel, read_write_of_legible (by decide +kernel)⟩

end Ini

end MissionGraph
