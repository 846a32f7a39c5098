import Mathlib.Data.List.Forall2
import MissionGraph.Proofs.Number.Exact
import MissionGraph.Proofs.Record.Values
import MissionGraph.Proofs.Script.Scanning
import MissionGraph.Script.Printer

/-!
# The words of a script

The words of which every statement consists, and that the lines written for a statement spell exactly
these words, at every width of indentation.
-/

namespace MissionGraph

open Mission (Comm Difficulty Field Message Objective Offer OfferItem OfferMode Party listText)
open Number (Numeral Single intText)
open Script (Word Spells Closes isName)

namespace Script

variable {α : Type}

/-- The word of a number, which may have a fraction. -/
def Word.number (text : String) : Word :=
  ⟨if '.' ∈ text.toList then .float else .integer, text⟩

/-- Parts with commas between them. -/
def listWords : List (List Word) → List Word
  | [] => []
  | part :: rest => part ++ rest.flatMap (Word.comma :: ·)

/-- Names, each of which is a part of a list. -/
def nameParts (names : List String) : List (List Word) :=
  names.map fun name => [.name name]

end Script

open Script (listWords nameParts)

/-! ## Words of field values -/

namespace Mission

namespace Message

/-- The words of the parts of a message. -/
def partWords (message : Message) : List (List Word) :=
  [.integer (intText message.id.toInt)] :: nameParts message.args

end Message

namespace OfferItem

def partWords (item : OfferItem) : List (List Word) :=
  nameParts item.plurality.marker?.toList ++ item.message.partWords

end OfferItem

namespace Offer

def words (offer : Offer) : List Word :=
  .name offer.mode.word :: .leftParen :: listWords (offer.items.flatMap OfferItem.partWords) ++ [.rightParen]

end Offer

namespace Comm

def partWords (comm : Comm) : List (List Word) :=
  [[.name comm.event], [.name comm.target.word], [.number comm.first.text], [.number comm.second.text],
    [.number comm.third.text], [.name comm.source.word], [.name comm.comm]]

end Comm

namespace Difficulty

def partWords (difficulty : Difficulty) : List (List Word) :=
  [[.number difficulty.lower.text], [.number difficulty.upper.text]]

end Difficulty

namespace Field

/-- The words after the keyword of a field. -/
def valueWords : Field → List Word
  | .comm value => listWords value.partWords
  | .failure value => listWords value.partWords
  | .reward value => listWords value.partWords
  | .objective value => listWords ([.name value.target] :: value.message.partWords)
  | .offers entries => .leftParen :: listWords (entries.map Offer.words) ++ [.rightParen]
  | .difficulty value => listWords value.partWords
  | .weight value => [.integer (intText value.toInt)]
  | .zones names => listWords (nameParts names)
  | .offerGroup name => [.name name]
  | .hostileGroup name => [.name name]

/-- The field can be written down and its numbers have digits. -/
def writable (field : Field) : Bool :=
  field.wellFormed && field.numbers.all Single.isFinite

end Field

end Mission

/-! ## Words of statements -/

namespace Script

variable {α : Type}

namespace Condition

/-- The words above a block of an `if`. -/
def words (first : Bool) : Condition → List Word
  | .named name => [.name (if first then "if" else "elif"), .name name]
  | .group name =>
      [.name (if first then "if" else "elif"), .name "group", .leftParen, .name name, .rightParen]
  | .otherwise => [.name "else"]

end Condition

mutual

def Statement.words : Statement α → List Word
  | .sub _ name body => .name "sub" :: .name name :: bodyWords body ++ [.name "end"]
  | .group _ declared =>
      .name "group" :: .name declared.name :: listWords (nameParts declared.factions) ++ [.semicolon]
  | .choice _ blocks => blockWords true blocks ++ [.name "end"]
  | .call _ name => [.name "call", .name name, .semicolon]
  | .unimplemented _ => [.name "err_unimplemented", .semicolon]
  | .doc _ name => [.name "doc", .name name, .semicolon]
  | .field _ value => .name value.keyword :: value.valueWords ++ [.semicolon]

/-- The words of statements one after the other. -/
def bodyWords : List (Statement α) → List Word
  | [] => []
  | statement :: rest => statement.words ++ bodyWords rest

/-- The words of the blocks of an `if`; the flag marks the first of them. -/
def blockWords (first : Bool) : List (Block α) → List Word
  | [] => []
  | .mk condition body :: rest => condition.words first ++ bodyWords body ++ blockWords false rest

end

/-- The statement can be written down and its numbers have digits, apart from the statements in it. -/
def Statement.writable : Statement α → Bool
  | .field _ value => value.writable
  | statement => statement.wellFormed

/-- All statements of a list and inside it can be written down with their numbers. -/
def Writable (statements : List (Statement α)) : Prop :=
  ∀ statement ∈ Statement.walkBody statements, statement.writable = true

theorem writable_cons_iff {statement : Statement α} {statements : List (Statement α)} :
    Writable (statement :: statements) ↔
      (∀ inner ∈ statement.walk, inner.writable = true) ∧ Writable statements := by
  simp only [Writable, Statement.walkBody, List.forall_mem_append]

/-! ## Spelling the pieces of a line -/

theorem spells_integer {value : Int32} (nonnegative : 0 ≤ value.toInt) :
    Spells (intText value.toInt) [.integer (intText value.toInt)] := by
  intro rest later parted scans
  have digits : (intText value.toInt).toList = Number.toDigits value.toInt.natAbs := by
    rw [Number.toList_intText, if_neg (Int.not_lt.mpr nonnegative)]
  have whole : String.ofList (Number.toDigits value.toInt.natAbs) = intText value.toInt := by
    rw [← digits, String.ofList_toList]
  have scanned := scans.integer (Number.digits_toDigits value.toInt.natAbs) parted
  rwa [whole, ← digits] at scanned

theorem not_mem_point_of_digits {digits : List Char} (whole : Number.Digits digits) : '.' ∉ digits :=
  fun member => absurd (whole.2 '.' member) (by decide)

theorem spells_numeral {text : List Char} (numeral : Numeral text) :
    Spells (String.ofList text) [.number (String.ofList text)] := by
  intro rest later parted scans
  rw [Word.number, String.toList_ofList]
  cases numeral with
  | whole digits =>
      rw [if_neg (not_mem_point_of_digits digits)]
      exact scans.integer digits parted
  | fraction digits places =>
      rw [if_pos (by simp)]
      exact scans.fraction digits places parted

theorem spells_number {value : Single} (unsigned : value.unsigned = true) (finite : value.isFinite = true) :
    Spells value.text [.number value.text] := by
  cases value with
  | finite value => exact spells_numeral (Number.Finite.numeral_text (by simpa [Single.unsigned] using unsigned))
  | infinite _ => cases finite
  | undefined => cases finite

theorem closes_between : Closes ", " [.comma] :=
  closes_comma.append closes_space

theorem listText_cons_cons (first second : String) (rest : List String) :
    listText (first :: second :: rest) = first ++ (", " ++ listText (second :: rest)) := by
  rw [← String.toList_inj]
  simp [listText, String.toList_intercalate]

theorem listWords_cons_cons (first second : List Word) (rest : List (List Word)) :
    listWords (first :: second :: rest) = first ++ (Word.comma :: listWords (second :: rest)) := by
  simp [listWords]

theorem spells_list {parts : List String} {words : List (List Word)} (spelled : List.Forall₂ Spells parts words) :
    Spells (listText parts) (listWords words) := by
  induction spelled with
  | nil => exact closes_empty.spells
  | @cons part word parts words spells rest ih =>
      cases rest with
      | nil =>
          rw [listWords, List.flatMap_nil, List.append_nil]
          rw [show listText [part] = part from by simp [listText]]
          exact spells
      | cons _ _ =>
          rw [listText_cons_cons, listWords_cons_cons]
          refine spells.append (closes_between.append_spells ih) (by simp) ?_
          rw [String.toList_append]
          exact parted_cons (by decide) (by decide)

theorem spelled_names {names : List String} (areNames : ∀ name ∈ names, isName name = true) :
    List.Forall₂ Spells names (nameParts names) := by
  induction names with
  | nil => exact .nil
  | cons name rest ih =>
      exact .cons (spells_name _ (areNames name List.mem_cons_self))
        (ih fun other member => areNames other (List.mem_cons_of_mem _ member))

theorem spelled_message {message : Message} (formed : message.wellFormed = true) :
    List.Forall₂ Spells message.parts message.partWords := by
  simp only [Message.wellFormed, Bool.and_eq_true, decide_eq_true_eq, List.all_eq_true] at formed
  exact .cons (spells_integer formed.1) (spelled_names formed.2)

theorem spelled_item {item : OfferItem} (formed : item.wellFormed = true) :
    List.Forall₂ Spells item.parts item.partWords := by
  simp only [OfferItem.wellFormed, Bool.and_eq_true] at formed
  have marked : ∀ name ∈ item.plurality.marker?.toList, isName name = true := by
    cases item.plurality <;> decide
  exact List.rel_append (spelled_names marked) (spelled_message formed.1)

theorem spells_offer {offer : Offer} (formed : offer.wellFormed = true) : Spells offer.text offer.words := by
  simp only [Offer.wellFormed, Bool.and_eq_true, List.all_eq_true] at formed
  have items : List.Forall₂ Spells (offer.items.flatMap OfferItem.parts)
      (offer.items.flatMap OfferItem.partWords) := by
    have each := formed.2
    generalize offer.items = items at each ⊢
    induction items with
    | nil => exact .nil
    | cons item rest ih =>
        rw [List.flatMap_cons, List.flatMap_cons]
        exact List.rel_append (spelled_item (each item List.mem_cons_self))
          (ih fun other member => each other (List.mem_cons_of_mem _ member))
  have mode := spells_name _ (ValueReader.OfferMode.ofWord?_word offer.mode).1
  have opened := mode.append_closes closes_leftParen (by decide) (parted_cons (by decide) (by decide))
  have closed := (opened.append_spells (spells_list items)).append_closes closes_rightParen (by decide)
    (parted_cons (by decide) (by decide))
  exact closed.spells

theorem spelled_comm {comm : Comm} (formed : comm.wellFormed = true)
    (finite : comm.numbers.all Single.isFinite = true) : List.Forall₂ Spells comm.parts comm.partWords := by
  simp only [Comm.wellFormed, Comm.numbers, Bool.and_eq_true, List.all_cons, List.all_nil] at formed finite
  obtain ⟨⟨event, first, second, third, _⟩, said⟩ := formed
  obtain ⟨firstFinite, secondFinite, thirdFinite, _⟩ := finite
  have party (one : Party) := spells_name _ (ValueReader.Party.ofWord?_word one).1
  exact .cons (spells_name _ event) (.cons (party _) (.cons (spells_number first firstFinite)
    (.cons (spells_number second secondFinite) (.cons (spells_number third thirdFinite)
      (.cons (party _) (.cons (spells_name _ said) .nil))))))

theorem spelled_difficulty {difficulty : Difficulty} (formed : difficulty.wellFormed = true)
    (finite : difficulty.numbers.all Single.isFinite = true) :
    List.Forall₂ Spells difficulty.parts difficulty.partWords := by
  simp only [Difficulty.wellFormed, Difficulty.numbers, Bool.and_eq_true, List.all_cons, List.all_nil]
    at formed finite
  exact .cons (spells_number formed.1 finite.1) (.cons (spells_number formed.2.1 finite.2.1) .nil)

/-- The value of a field on one line spells its words. -/
theorem spells_value {field : Field} (formed : field.wellFormed = true)
    (finite : field.numbers.all Single.isFinite = true) (oneLine : ∀ entries, field ≠ .offers entries) :
    Spells field.valueText field.valueWords := by
  cases field with
  | comm value => exact spells_list (spelled_comm formed finite)
  | failure value => exact spells_list (spelled_message formed)
  | reward value => exact spells_list (spelled_message formed)
  | objective value =>
      simp only [Field.wellFormed, Objective.wellFormed, Bool.and_eq_true] at formed
      exact spells_list (.cons (spells_name _ formed.1) (spelled_message formed.2))
  | offers entries => exact absurd rfl (oneLine entries)
  | difficulty value => exact spells_list (spelled_difficulty formed finite)
  | weight value => exact spells_integer (by simpa [Field.wellFormed] using formed)
  | zones names =>
      simp only [Field.wellFormed, Bool.and_eq_true, List.all_eq_true] at formed
      exact spells_list (spelled_names formed.2)
  | offerGroup name => exact spells_name _ formed
  | hostileGroup name => exact spells_name _ formed

theorem isName_keyword (field : Field) : isName field.keyword = true := by
  cases field <;> simp only [Field.keyword] <;> decide

/-- A word, a blank and a further piece. -/
theorem Spells.after_name {piece : String} {words : List Word} (spells : Spells piece words) (name : String)
    (named : isName name = true) : Spells (name ++ " " ++ piece) (.name name :: words) := by
  have spaced := (spells_name name named).append_closes closes_space (by decide) (parted_cons (by decide) (by decide))
  exact spaced.append_spells spells

theorem Spells.before_semicolon {piece : String} {words : List Word} (spells : Spells piece words) :
    Spells (piece ++ ";") (words ++ [.semicolon]) :=
  (spells.append_closes closes_semicolon (by decide) (parted_cons (by decide) (by decide))).spells

/-! ## Spelling lines -/

/-- The lines spell the words one after the other. -/
inductive Written : List Text.Line → List Word → Prop where
  | nil : Written [] []
  | cons {line : Text.Line} {words later : List Word} {rest : List Text.Line} (spells : Spells line.text words)
      (after : Written rest later) : Written (line :: rest) (words ++ later)

theorem Written.append {lines others : List Text.Line} {words later : List Word} (written : Written lines words)
    (after : Written others later) : Written (lines ++ others) (words ++ later) := by
  induction written with
  | nil => exact after
  | cons spells _ ih =>
      rw [List.append_assoc]
      exact .cons spells ih

theorem written_line (level : Nat) {text : String} {words : List Word} (spells : Spells text words) :
    Written [⟨level, text⟩] words := by
  have written : Written [⟨level, text⟩] (words ++ []) := .cons spells .nil
  rwa [List.append_nil] at written

theorem Written.deeper {lines : List Text.Line} {words : List Word} (written : Written lines words) :
    Written (lines.map Text.Line.deeper) words := by
  induction written with
  | nil => exact .nil
  | cons spells _ ih => exact .cons spells ih

theorem closes_render {line : Text.Line} {words : List Word} (spells : Spells line.text words) (width : Nat) :
    Closes (line.render width) words := by
  have margin : Closes (if line.text.isEmpty then "" else Text.Writer.margin width line.level) [] := by
    split
    · exact closes_empty
    · refine Skipped.closes _ ?_
      rw [Text.Writer.margin, String.toList_ofList]
      exact skipped_replicate _
  have feed : Closes "\n" [] := Skipped.closes "\n" (skipped_blank (by decide) (by decide))
  have closes := (margin.append_spells spells).append_closes feed (by decide)
    (parted_cons (by decide) (by decide))
  rwa [List.nil_append, List.append_nil] at closes

theorem Written.closes {lines : List Text.Line} {words : List Word} (written : Written lines words) (width : Nat) :
    Closes (String.join (lines.map (Text.Line.render width))) words := by
  induction written with
  | nil => exact closes_empty
  | cons spells _ ih =>
      rw [List.map_cons, String.join_cons]
      exact (closes_render spells width).append ih

theorem written_offers {entries : List Offer} (nonempty : entries ≠ [])
    (formed : ∀ entry ∈ entries, entry.wellFormed = true) :
    Written ((offerLines entries).map (Text.Line.mk 1)) (listWords (entries.map Offer.words)) := by
  fun_induction offerLines entries with
  | case1 => exact absurd rfl nonempty
  | case2 last =>
      have written := written_line 1 (spells_offer (formed last List.mem_cons_self))
      simpa [listWords] using written
  | case3 offer rest notLast ih =>
      cases rest with
      | nil => exact absurd rfl notLast
      | cons next others =>
          have spells := (spells_offer (formed offer List.mem_cons_self)).append_closes closes_comma (by decide)
            (parted_cons (by decide) (by decide))
          rw [List.map_cons, List.map_cons, List.map_cons, listWords_cons_cons]
          have later := ih (by simp) fun entry member => formed entry (List.mem_cons_of_mem _ member)
          have written := (written_line 1 spells.spells).append later
          simpa using written

theorem written_field {field : Field} (formed : field.wellFormed = true)
    (finite : field.numbers.all Single.isFinite = true) :
    Written (fieldLines field) (.name field.keyword :: field.valueWords ++ [.semicolon]) := by
  have keyword := isName_keyword field
  unfold fieldLines
  split
  · rename_i entries
    simp only [Field.wellFormed, Bool.and_eq_true, Bool.not_eq_true', List.isEmpty_eq_false_iff,
      List.all_eq_true] at formed
    have opening := written_line 0 (closes_leftParen.spells.after_name _ keyword)
    have closing := written_line 0 closes_rightParen.spells.before_semicolon
    have written := (opening.append (written_offers formed.1 formed.2)).append closing
    simpa [Field.keyword, Field.valueWords] using written
  · rename_i oneLine
    exact written_line 0 ((spells_value formed finite oneLine).after_name _ keyword).before_semicolon

theorem spells_blockHead {condition : Condition} (first : Bool) (formed : condition.wellFormed = true) :
    Spells (blockHead first condition) (condition.words first) := by
  have word : isName (if first then "if" else "elif") = true := by
    cases first <;> decide
  have same : (if first then "if " else "elif ") = (if first then "if" else "elif") ++ " " := by
    cases first <;> rfl
  cases condition with
  | otherwise => exact spells_name "else" (by decide)
  | named name =>
      simp only [Condition.wellFormed, Bool.and_eq_true] at formed
      rw [blockHead, same]
      · exact (spells_name _ formed.1).after_name _ word
      · exact nofun
  | group name =>
      rw [blockHead, same]
      · have tested := ((spells_name "group" (by decide)).append_closes closes_leftParen (by decide)
          (parted_cons (by decide) (by decide))).append_spells (spells_name _ formed)
        have closed := tested.append_closes closes_rightParen (by decide) (parted_cons (by decide) (by decide))
        exact closed.spells.after_name _ word
      · exact nofun

theorem written_group {group : Group} (formed : group.wellFormed = true) :
    Written [⟨0, group.text⟩]
      (.name "group" :: .name group.name :: listWords (nameParts group.factions) ++ [.semicolon]) := by
  simp only [Group.wellFormed, Bool.and_eq_true, List.all_eq_true] at formed
  have listed := (spells_list (spelled_names formed.2)).after_name _ formed.1.1
  have spells := (listed.after_name "group" (by decide)).before_semicolon
  refine written_line 0 ?_
  simpa [Group.text, String.append_assoc] using spells

mutual

theorem written_statement {statement : Statement α} (writable : ∀ inner ∈ statement.walk, inner.writable = true) :
    Written statement.lines statement.words := by
  match statement with
  | .sub note name body =>
      obtain ⟨named, inner⟩ := List.forall_mem_cons.mp writable
      have opening := written_line 0 ((spells_name _ named).after_name "sub" (by decide))
      have closing := written_line 0 (spells_name "end" (by decide))
      have written := (opening.append (written_body inner).deeper).append closing
      simpa [Statement.lines, Statement.words] using written
  | .group note declared => exact written_group (writable _ List.mem_cons_self)
  | .choice note blocks =>
      obtain ⟨formed, inner⟩ := List.forall_mem_cons.mp writable
      have closing := written_line 0 (spells_name "end" (by decide))
      exact (written_blocks true (fun block member => condition_wellFormed formed member) inner).append closing
  | .call note name =>
      have named : isName name = true := writable _ List.mem_cons_self
      exact written_line 0 ((spells_name name named).after_name "call" (by decide)).before_semicolon
  | .unimplemented note =>
      exact written_line 0 (spells_name "err_unimplemented" (by decide)).before_semicolon
  | .doc note name =>
      have named : isName name = true := writable _ List.mem_cons_self
      exact written_line 0 ((spells_name name named).after_name "doc" (by decide)).before_semicolon
  | .field note value =>
      have formed := writable _ List.mem_cons_self
      simp only [Statement.writable, Field.writable, Bool.and_eq_true] at formed
      exact written_field formed.1 formed.2

theorem written_body {statements : List (Statement α)} (writable : Writable statements) :
    Written (Statement.bodyLines statements) (bodyWords statements) := by
  match statements with
  | [] => exact .nil
  | statement :: rest =>
      obtain ⟨first, later⟩ := writable_cons_iff.mp writable
      exact (written_statement first).append (written_body later)

theorem written_blocks {blocks : List (Block α)} (first : Bool)
    (formed : ∀ block ∈ blocks, block.condition.wellFormed = true)
    (writable : ∀ inner ∈ Statement.walkBlocks blocks, inner.writable = true) :
    Written (Statement.blockLines first blocks) (blockWords first blocks) := by
  match blocks with
  | [] => exact .nil
  | .mk condition body :: rest =>
      obtain ⟨inner, later⟩ := List.forall_mem_append.mp writable
      have tested : condition.wellFormed = true := formed _ List.mem_cons_self
      have head := written_line 0 (spells_blockHead first tested)
      have others := written_blocks false (fun block member => formed block (List.mem_cons_of_mem _ member)) later
      simpa [Statement.blockLines, blockWords] using (head.append (written_body inner).deeper).append others

end

end Script

end MissionGraph
