import MissionGraph.Proofs.Ini.Lines
import MissionGraph.Proofs.Record.Decoding

/-!
# Sections and whole texts

The text that is written for records is read back as the same records, with each value as its text is
judged, if the numbers of their nodes fit into 32 bits.
-/

namespace MissionGraph

open Number (Single)
open Script (isName)
open Text (Plain)

/-- The value can be written down. -/
def Value.Written : Value → Prop
  | .int _ => True
  | .float value => value.unsigned = true
  | .bool _ => True
  | .name text => isName text = true

/-- The line of the entry can be taken apart again, and it is not taken for the number of a node. -/
structure Entry.Lined (entry : Entry) : Prop where
  label : Ini.Label entry.name.toList
  notId : Text.sameLetters entry.name "node_id" = false
  notChild : Text.sameLetters entry.name "child_node" = false
  pieces : ∀ value ∈ entry.values, Ini.Piece value.text.toList

namespace Ini

theorem plain_of_digits {text : List Char} (digits : Number.Digits text) : Plain text :=
  ⟨digits.1, fun c member => Text.isPlain_of_isDigit (digits.2 c member)⟩

theorem plain_of_isName {text : String} (named : isName text = true) : Plain text.toList := by
  obtain ⟨c, rest, isList, start, parts⟩ := exists_nameStart named
  rw [isList]
  refine ⟨List.cons_ne_nil _ _, List.forall_mem_cons.mpr ⟨Text.isPlain_of_isNameStart start, ?_⟩⟩
  exact fun d member => Text.isPlain_of_isNamePart (parts d member)

theorem plain_of_numeral {text : List Char} (numeral : Number.Numeral text) : Plain text := by
  cases numeral with
  | whole digits => exact plain_of_digits digits
  | fraction digits places =>
      refine ⟨fun isEmpty => digits.1 (List.append_eq_nil_iff.mp isEmpty).1, ?_⟩
      refine List.forall_mem_append.mpr ⟨(plain_of_digits digits).2, ?_⟩
      exact List.forall_mem_cons.mpr ⟨by decide, (plain_of_digits places).2⟩

theorem plain_minus {text : List Char} (plain : Plain text) : Plain ('-' :: text) :=
  ⟨List.cons_ne_nil _ _, List.forall_mem_cons.mpr ⟨by decide, plain.2⟩⟩

theorem plain_intText (value : Int) : Plain (Number.intText value).toList := by
  have digits := plain_of_digits (Number.digits_toDigits value.natAbs)
  rw [Number.toList_intText]
  split
  · exact plain_minus digits
  · exact digits

theorem plain_finite (value : Number.Finite) : Plain value.text := by
  obtain ⟨digits, numeral, same⟩ := value.exists_numeral
  have plain := plain_of_numeral numeral
  rw [same, Number.Finite.signed]
  split
  · exact plain_minus plain
  · exact plain

theorem plain_text {value : Value} (written : value.Written) : Plain value.text.toList := by
  cases value with
  | int value => exact plain_intText _
  | float value =>
      cases value with
      | finite value =>
          rw [Value.text, Single.text, String.toList_ofList]
          exact plain_finite value
      | infinite negative => cases negative <;> decide
      | undefined => cases written
  | bool value => cases value <;> decide
  | name text => exact plain_of_isName written

theorem toList_entryText (entry : Entry) :
    entry.text.toList = entryLine entry.name.toList (entry.values.map fun value => value.text.toList) := by
  simp [Entry.text, entryLine, Mission.listText, String.toList_intercalate, List.map_map, Function.comp_def]

theorem readLine_entryText {entry : Entry} (lined : entry.Lined) :
    readLine entry.text.toList = .entry entry.name (entry.values.map reread) := by
  have arePieces : ∀ piece ∈ entry.values.map (fun value => value.text.toList), Piece piece :=
    List.forall_mem_map.mpr lined.pieces
  rw [toList_entryText, readLine_entryLine lined.label arePieces, String.ofList_toList, List.map_map]
  rfl

/-! ## Numbers of nodes -/

/-- The line for the number of a node. -/
def idLine (name : String) (id : NodeId) : String :=
  name ++ " = " ++ Nat.repr id

theorem toList_idLine (name : String) (id : NodeId) :
    (idLine name id).toList = entryLine name.toList [Number.toDigits id] := by
  simp [idLine, entryLine, Nat.repr, Number.toDigits]

theorem readLine_idLine {name : String} (plain : Plain name.toList) (id : NodeId) :
    readLine (idLine name id).toList = .entry name [readValue (Number.toDigits id)] := by
  have isPiece := piece_of_plain (plain_of_digits (Number.digits_toDigits id))
  rw [toList_idLine, readLine_entryLine (label_of_plain plain) (List.forall_mem_singleton.mpr isPiece), String.ofList_toList]
  rfl

theorem readValue_ne_int {text : List Char} (notInt : Number.readInt32? text = none) (value : Int32) :
    readValue text ≠ .int value := by
  rw [readValue, notInt]
  simp only
  split
  · exact Value.noConfusion
  · split
    · exact Value.noConfusion
    · split <;> exact Value.noConfusion

/-- A number of a node is read if it fits into 32 bits. -/
theorem readId_digits (line : Nat) (name : String) (id : Nat) :
    readId line name [readValue (Number.toDigits id)] =
      if id < 2 ^ 31 then .ok id else .error ⟨line, .badId name⟩ := by
  have digits := Number.digits_toDigits id
  have read : Number.readInt32? (Number.toDigits id) = Number.ofInt? (id : Int) := by
    rw [Number.readInt32?, digits.readInt?, Number.ofDigits_toDigits, Option.bind_some]
  by_cases fits : id < 2 ^ 31
  · have inRange : Int32.minValue.toInt ≤ (id : Int) ∧ (id : Int) ≤ Int32.maxValue.toInt := by
      rw [Int32.toInt_minValue, Int32.toInt_maxValue]
      omega
    have value : (Int32.ofInt id).toInt = id := Int32.toInt_ofInt_of_le (by omega) (by omega)
    rw [readValue, read, Number.ofInt?, if_pos inRange, if_pos fits]
    simp only [readId, value]
    rw [if_pos (Int.natCast_nonneg _), Int.toNat_natCast]
  · have outside : ¬ (Int32.minValue.toInt ≤ (id : Int) ∧ (id : Int) ≤ Int32.maxValue.toInt) := by
      rw [Int32.toInt_minValue, Int32.toInt_maxValue]
      omega
    rw [Number.ofInt?, if_neg outside] at read
    rw [if_neg fits]
    have notInt := readValue_ne_int read
    cases isValue : readValue (Number.toDigits id) with
    | int value => exact absurd isValue (notInt value)
    | float value => rfl
    | bool value => rfl
    | name text => rfl

/-! ## Sections -/

/-- Goes on with several lines, the first of which has the given number. -/
def advance (progress : Progress) (line : Nat) : List (List Char) → Except Fault Progress
  | [] => .ok progress
  | text :: rest => do
      let next ← progress.step line (readLine text)
      advance next (line + 1) rest

theorem readLines_append (progress : Progress) (line : Nat) (first second : List (List Char)) :
    readLines progress line (first ++ second) =
      (advance progress line first).bind fun next => readLines next (line + first.length) second := by
  induction first generalizing progress line with
  | nil => rfl
  | cons text rest ih =>
      rw [List.cons_append, readLines, advance]
      cases progress.step line (readLine text) with
      | error fault => rfl
      | ok next =>
          rw [Success.ok_bind, Success.ok_bind, ih, List.length_cons, Nat.add_assoc, Nat.add_comm 1]

theorem advance_append (progress : Progress) (line : Nat) (first second : List (List Char)) :
    advance progress line (first ++ second) =
      (advance progress line first).bind fun next => advance next (line + first.length) second := by
  induction first generalizing progress line with
  | nil => rfl
  | cons text rest ih =>
      rw [List.cons_append, advance, advance]
      cases progress.step line (readLine text) with
      | error fault => rfl
      | ok next =>
          rw [Success.ok_bind, Success.ok_bind, ih, List.length_cons, Nat.add_assoc, Nat.add_comm 1]

/-- The entries of a record go into the open section. -/
theorem advance_entries {entries : List Entry} (lined : ∀ entry ∈ entries, entry.Lined)
    (records : List Record) (target : Section) (line : Nat) :
    advance ⟨records, some target⟩ line (entries.map fun entry => entry.text.toList) =
      .ok ⟨records, some { target with entries := target.entries ++ entries.map (Entry.mapValues reread) }⟩ := by
  induction entries generalizing target line with
  | nil =>
      rw [List.map_nil, List.map_nil, List.append_nil]
      rfl
  | cons entry others ih =>
      have first := lined entry List.mem_cons_self
      have added : addEntry line entry.name (entry.values.map reread) target =
          .ok { target with entries := target.entries ++ [Entry.mapValues reread entry] } := by
        rw [addEntry, if_neg (by simp [first.notId]), if_neg (by simp [first.notChild])]
        rfl
      rw [List.map_cons, advance, readLine_entryText first, Progress.step]
      simp only [added]
      rw [Success.ok_map, Success.ok_bind, ih fun other member => lined other (List.mem_cons_of_mem _ member)]
      simp

/-- The children of a record go into the open section. -/
theorem advance_children {children : List Nat} (fits : ∀ child ∈ children, child < 2 ^ 31)
    (records : List Record) (target : Section) (line : Nat) :
    advance ⟨records, some target⟩ line (children.map fun child => (idLine "child_node" child).toList) =
      .ok ⟨records, some { target with children := target.children ++ children }⟩ := by
  induction children generalizing target line with
  | nil =>
      rw [List.map_nil, List.append_nil]
      rfl
  | cons child others ih =>
      have added : addEntry line "child_node" [readValue (Number.toDigits child)] target =
          .ok { target with children := target.children ++ [child] } := by
        rw [addEntry, if_neg (by decide +kernel), if_pos (by decide +kernel), readId_digits,
          if_pos (fits child List.mem_cons_self)]
        rfl
      rw [List.map_cons, advance, readLine_idLine (by decide), Progress.step]
      simp only [added]
      rw [Success.ok_map, Success.ok_bind, ih fun other member => fits other (List.mem_cons_of_mem _ member)]
      simp

theorem plain_word (kind : RecordKind) : Plain kind.word.toList := by
  cases kind <;> decide

theorem ofWord?_word (kind : RecordKind) : RecordKind.ofWord? kind.word = some kind := by
  cases kind <;> decide +kernel

theorem map_toList_recordLines (record : Record) :
    (recordLines record).map String.toList =
      ('[' :: (record.kind.word.toList ++ [']'])) :: (idLine "node_id" record.id).toList ::
        (record.entries.map (fun entry => entry.text.toList) ++
          record.children.map fun child => (idLine "child_node" child).toList) := by
  simp [recordLines, idLine, Function.comp_def]

/-- The header of a section closes the section before it. -/
theorem step_header (progress : Progress) (line : Nat) (kind : RecordKind) :
    progress.step line (readLine ('[' :: (kind.word.toList ++ [']']))) =
      progress.close.map fun records => ⟨records, some ⟨kind, line, none, [], []⟩⟩ := by
  rw [readLine_header (plain_word kind), Progress.step, String.ofList_toList]
  cases progress.close with
  | error fault => rfl
  | ok records =>
      rw [Success.ok_bind, ofWord?_word]
      rfl

/-- The number of a node goes into a section that has just been opened. -/
theorem step_id (records : List Record) (target : Section) (line : Nat) (id : Nat) :
    Progress.step ⟨records, some target⟩ line (readLine (idLine "node_id" id).toList) =
      if id < 2 ^ 31 then .ok ⟨records, some { target with id := some id }⟩
      else .error ⟨line, .badId "node_id"⟩ := by
  have added : addEntry line "node_id" [readValue (Number.toDigits id)] target =
      if id < 2 ^ 31 then .ok { target with id := some id } else .error ⟨line, .badId "node_id"⟩ := by
    rw [addEntry, if_pos (by decide +kernel), readId_digits]
    split <;> rfl
  rw [readLine_idLine (by decide), Progress.step]
  simp only [added]
  split <;> rfl

/-- The lines of a record open a section that holds it. -/
theorem advance_section {record : Record} (lined : ∀ entry ∈ record.entries, entry.Lined)
    (fits : (record.id : Nat) < 2 ^ 31) (childrenFit : ∀ child ∈ record.children, (child : Nat) < 2 ^ 31)
    {progress : Progress} {records : List Record} (closes : progress.close = .ok records) (line : Nat) :
    ∃ next, advance progress line ((recordLines record).map String.toList) = .ok next ∧
      next.close = .ok (records ++ [record.mapValues reread]) := by
  refine ⟨⟨records, some ⟨record.kind, line, some record.id, record.entries.map (Entry.mapValues reread),
    record.children⟩⟩, ?_, rfl⟩
  rw [map_toList_recordLines, advance, step_header, closes, Success.ok_map, Success.ok_bind, advance, step_id,
    if_pos fits, Success.ok_bind, advance_append, advance_entries lined]
  exact advance_children childrenFit _ _ _

/-- The lines of a record whose number is too large cannot be read. -/
theorem advance_section_error {record : Record} (large : ¬ (record.id : Nat) < 2 ^ 31) (progress : Progress)
    (line : Nat) : ∃ fault, advance progress line ((recordLines record).map String.toList) = .error fault := by
  rw [map_toList_recordLines, advance, step_header]
  cases progress.close with
  | error fault => exact ⟨fault, rfl⟩
  | ok records =>
      rw [Success.ok_map, Success.ok_bind, advance, step_id, if_neg large]
      exact ⟨_, rfl⟩

/-! ## Texts -/

theorem lines_cons_cons (first second : Record) (others : List Record) :
    (lines (first :: second :: others)).map String.toList =
      (recordLines first).map String.toList ++ [] :: (lines (second :: others)).map String.toList := by
  simp [lines, List.intercalate_cons_cons]

theorem lines_singleton (record : Record) : lines [record] = recordLines record := by
  simp [lines]

/-- The sections of records are read back one after the other. -/
theorem readLines_lines {record : Record} {records : List Record}
    (lined : ∀ other ∈ record :: records, ∀ entry ∈ other.entries, entry.Lined)
    (fits : ∀ other ∈ record :: records, (other.id : Nat) < 2 ^ 31)
    (childrenFit : ∀ other ∈ record :: records, ∀ child ∈ other.children, (child : Nat) < 2 ^ 31)
    {progress : Progress} {earlier : List Record} (closes : progress.close = .ok earlier) (line : Nat) :
    readLines progress line ((lines (record :: records)).map String.toList) =
      .ok (earlier ++ (record :: records).map (Record.mapValues reread)) := by
  induction records generalizing record progress earlier line with
  | nil =>
      obtain ⟨next, success, closesNext⟩ := advance_section (lined record List.mem_cons_self)
        (fits record List.mem_cons_self) (childrenFit record List.mem_cons_self) closes line
      rw [lines_singleton, ← List.append_nil ((recordLines record).map String.toList), readLines_append, success]
      exact closesNext
  | cons second others ih =>
      obtain ⟨next, success, closesNext⟩ := advance_section (lined record List.mem_cons_self)
        (fits record List.mem_cons_self) (childrenFit record List.mem_cons_self) closes line
      have later := ih (fun other member => lined other (List.mem_cons_of_mem _ member))
        (fun other member => fits other (List.mem_cons_of_mem _ member))
        (fun other member => childrenFit other (List.mem_cons_of_mem _ member)) closesNext
      rw [lines_cons_cons, readLines_append, success, Except.bind, readLines, readLine_nil, Progress.step,
        Success.ok_bind, later]
      simp

/-- No text with the number of a node that is too large can be read. -/
theorem readLines_lines_error {record : Record} {records : List Record} {large : Record}
    (member : large ∈ record :: records) (tooLarge : ¬ (large.id : Nat) < 2 ^ 31) (progress : Progress)
    (line : Nat) :
    ∃ fault, readLines progress line ((lines (record :: records)).map String.toList) = .error fault := by
  induction records generalizing record progress line with
  | nil =>
      rw [List.mem_singleton] at member
      subst member
      obtain ⟨fault, failed⟩ := advance_section_error tooLarge progress line
      rw [lines_singleton, ← List.append_nil ((recordLines large).map String.toList), readLines_append, failed]
      exact ⟨fault, rfl⟩
  | cons second others ih =>
      rw [lines_cons_cons, readLines_append]
      rcases List.mem_cons.mp member with rfl | later
      · obtain ⟨fault, failed⟩ := advance_section_error tooLarge progress line
        rw [failed]
        exact ⟨fault, rfl⟩
      · cases advance progress line ((recordLines record).map String.toList) with
        | error fault => exact ⟨fault, rfl⟩
        | ok next =>
            rw [Except.bind, readLines, readLine_nil, Progress.step, Success.ok_bind]
            exact ih later next _

theorem no_line_feed {record : Record} (lined : ∀ entry ∈ record.entries, entry.Lined) {line : String}
    (member : line ∈ recordLines record) : '\n' ∉ line.toList := by
  have ofId (name : String) (plain : Plain name.toList) (id : NodeId) : '\n' ∉ (idLine name id).toList := by
    have digits := plain_of_digits (Number.digits_toDigits id)
    rw [toList_idLine]
    exact not_mem_entryLine (plain.not_mem (by decide))
      (List.forall_mem_singleton.mpr (digits.not_mem (by decide))) (by decide)
  have listed : line.toList ∈ (recordLines record).map String.toList := List.mem_map.mpr ⟨line, member, rfl⟩
  rw [map_toList_recordLines, List.mem_cons, List.mem_cons, List.mem_append, List.mem_map, List.mem_map] at listed
  rcases listed with isHeader | isId | ⟨entry, isEntry, same⟩ | ⟨child, _, same⟩
  · rw [isHeader]
    intro feed
    rcases List.mem_cons.mp feed with impossible | later
    · exact absurd impossible (by decide)
    · rcases List.mem_append.mp later with inWord | isClosing
      · exact (plain_word record.kind).not_mem (by decide) inWord
      · exact absurd isClosing (by decide)
  · rw [isId]
    exact ofId _ (by decide) _
  · rw [← same, toList_entryText]
    have isLined := lined entry isEntry
    exact not_mem_entryLine isLined.label.noFeed
      (List.forall_mem_map.mpr fun value isValue => (isLined.pieces value isValue).noFeed) (by decide)
  · rw [← same]
    exact ofId _ (by decide) _

theorem lines_write {records : List Record} (lined : ∀ record ∈ records, ∀ entry ∈ record.entries, entry.Lined) :
    Text.lines (write records).toList = (lines records).map String.toList := by
  have text : (write records).toList = ((lines records).map String.toList).flatMap fun line => line ++ ['\n'] := by
    simp [write, String.toList_join, List.flatMap_map]
  rw [text, Text.lines_flatMap]
  intro characters member
  obtain ⟨line, listed, rfl⟩ := List.mem_map.mp member
  rcases mem_intercalate listed with between | ⟨inner, isSection, inSection⟩
  · rw [List.mem_singleton.mp between]
    decide
  · obtain ⟨record, isRecord, rfl⟩ := List.mem_map.mp isSection
    exact no_line_feed (lined record isRecord) inSection

/-- Records whose numbers fit into 32 bits are read back with each value as its text is judged. -/
theorem read_write {records : List Record} (lined : ∀ record ∈ records, ∀ entry ∈ record.entries, entry.Lined)
    (fits : ∀ record ∈ records, (record.id : Nat) < 2 ^ 31)
    (childrenFit : ∀ record ∈ records, ∀ child ∈ record.children, (child : Nat) < 2 ^ 31) :
    read (write records) = .ok (records.map (Record.mapValues reread)) := by
  rw [read, lines_write lined]
  cases records with
  | nil => rfl
  | cons record others =>
      have closes : Progress.close ⟨[], none⟩ = .ok [] := rfl
      have success := readLines_lines lined fits childrenFit closes 1
      rwa [List.nil_append] at success

/-- Records cannot be read back if a number is too large. -/
theorem read_write_error {records : List Record}
    (lined : ∀ record ∈ records, ∀ entry ∈ record.entries, entry.Lined) {record : Record}
    (member : record ∈ records) (large : ¬ (record.id : Nat) < 2 ^ 31) :
    ∃ fault, read (write records) = .error fault := by
  rw [read, lines_write lined]
  cases records with
  | nil => cases member
  | cons first others => exact readLines_lines_error member large _ _

end Ini

end MissionGraph
