import Mathlib.Logic.Function.Iterate
import MissionGraph.Proofs.Script.Recognition

/-!
# Written fields are read back

A field has a text on one line, and offers also have one with a line for each entry. Both spell the words of
the field, so the parser reads the field from either of them.
-/

namespace MissionGraph.Script

open Mission (Field Offer listText)
open Number (Single)

theorem spelled_offers {entries : List Offer} (formed : ∀ entry ∈ entries, entry.wellFormed = true) :
    List.Forall₂ Spells (entries.map Offer.text) (entries.map Offer.words) := by
  rw [List.forall₂_map_left_iff, List.forall₂_map_right_iff, List.forall₂_same]
  exact fun entry member => spells_offer (formed entry member)

/-- The value of any field on one line spells its words. -/
theorem spells_valueText {field : Field} (writable : field.writable = true) :
    Spells field.valueText field.valueWords := by
  obtain ⟨formed, finite⟩ := Bool.and_eq_true_iff.mp writable
  cases field with
  | offers entries =>
      simp only [Field.wellFormed, Bool.and_eq_true, List.all_eq_true] at formed
      have opened := closes_leftParen.append_spells (spells_list (spelled_offers formed.2))
      exact (opened.append_closes closes_rightParen (by decide) (parted_cons (by decide) (by decide))).spells
  | _ =>
      refine spells_value formed finite fun entries isOffers => ?_
      cases isOffers

/-- The words of a field statement. -/
theorem spells_field {field : Field} (writable : field.writable = true) :
    Spells (field.text ++ ";") (bodyWords [.field () field]) := by
  have spells := ((spells_valueText writable).after_name _ (isName_keyword field)).before_semicolon
  rwa [bodyWords, bodyWords, List.append_nil]

theorem Written.deeper_iterate {lines : List Text.Line} {words : List Word} (written : Written lines words)
    (level : Nat) : Written (lines.map Text.Line.deeper^[level]) words := by
  induction level with
  | zero => simpa using written
  | succ level ih =>
      rw [Function.iterate_succ', ← List.map_map]
      exact ih.deeper

/-- A text that spells a field and nothing else is parsed to one statement. -/
theorem parse_of_spells_field {field : Field} {text : String} (writable : field.writable = true)
    (spells : Spells text (bodyWords [.field () field])) : ∃ pos, parse text = .ok [.field pos field] := by
  have parted : Parted [] := by
    intro c first
    cases first
  have scans := spells [] [] parted scans_nil
  rw [List.append_nil, List.append_nil] at scans
  have lone : Writable [Statement.field () field] := List.forall_mem_singleton.mpr writable
  have flat : Flat [Statement.field () field] := by
    intro statement member inner inside
    cases List.mem_singleton.mp member
    cases inside
  obtain ⟨program, parsed, same⟩ := exists_parse lone flat scans
  cases program with
  | nil => cases same
  | cons statement others =>
      obtain ⟨sameFirst, sameOthers⟩ := List.cons.inj same
      cases others with
      | cons _ _ => cases sameOthers
      | nil =>
          cases statement with
          | field pos value =>
              cases sameFirst
              exact ⟨pos, parsed⟩
          | _ => cases sameFirst

/-- A field that can be written down is parsed to itself, from its text on one line and from its lines, at
every width of indentation and every level. -/
theorem parse_field_text (field : Field) (writable : field.writable = true) (width level : Nat) :
    (∃ pos, parse (field.text ++ ";") = .ok [.field pos field]) ∧
      ∃ pos, parse (Text.renderLines width ((fieldLines field).map Text.Line.deeper^[level])) =
        .ok [.field pos field] := by
  obtain ⟨formed, finite⟩ := Bool.and_eq_true_iff.mp writable
  have written : Written (fieldLines field) (bodyWords [.field () field]) := by
    rw [bodyWords, bodyWords, List.append_nil]
    exact written_field formed finite
  refine ⟨parse_of_spells_field writable (spells_field writable), parse_of_spells_field writable ?_⟩
  rw [Text.renderLines_eq_join]
  exact ((written.deeper_iterate level).closes width).spells

/-- Offers in which a name, a plurality and a number follow upon each other. -/
def mixedOffers : Field :=
  .offers [⟨.append, [⟨.none, ⟨5, ["Alpha", "b_2"]⟩⟩, ⟨.plural, ⟨7, []⟩⟩, ⟨.none, ⟨0, []⟩⟩]⟩,
    ⟨.replace, [⟨.singular, ⟨2147483647, ["c"]⟩⟩]⟩]

theorem parse_field_text_mixedOffers :
    mixedOffers.writable = true ∧
      (∃ pos, parse "offer_text (append(5, Alpha, b_2, plural, 7, 0), replace(singular, 2147483647, c));" =
        .ok [.field pos mixedOffers]) ∧
      ∃ pos, parse "  offer_text (\n    append(5, Alpha, b_2, plural, 7, 0),\n    replace(singular, 2147483647, c)\n  );\n" =
        .ok [.field pos mixedOffers] := by
  have writable : mixedOffers.writable = true := by decide +kernel
  obtain ⟨oneLine, lines⟩ := parse_field_text mixedOffers writable 2 1
  have text : mixedOffers.text ++ ";" =
      "offer_text (append(5, Alpha, b_2, plural, 7, 0), replace(singular, 2147483647, c));" := by decide +kernel
  have written : Text.renderLines 2 ((fieldLines mixedOffers).map Text.Line.deeper^[1]) =
      "  offer_text (\n    append(5, Alpha, b_2, plural, 7, 0),\n    replace(singular, 2147483647, c)\n  );\n" := by
    decide +kernel
  exact ⟨writable, text ▸ oneLine, written ▸ lines⟩

end MissionGraph.Script
