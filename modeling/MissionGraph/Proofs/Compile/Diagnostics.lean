import Mathlib
import MissionGraph.Proofs.Compile.Indentation
import MissionGraph.Proofs.Script.Excerpts

/-!
# Refusals can be shown

Whatever refuses a script, a character, a token, a check or the construction of the graph, it refuses it at a place of
the text: only places of the text come up, and places are merely carried along. Hence every refusal is shown with its
message and a mark below the line that it is about, unless the text ends in a line feed and is refused at its end. There
is no line there, and the message is lost.
-/

namespace MissionGraph

namespace Script

/-! ## Places of a text -/

/-- A part of the text leads up to the place. -/
def InText (text : List Char) (pos : Pos) : Prop :=
  ∃ before after, text = before ++ after ∧ pos = Pos.start.after before

/-- The change of places leaves those of a text alone. -/
def Fixes (f : Pos → Pos) (text : List Char) : Prop :=
  ∀ pos, InText text pos → f pos = pos

/-- A place up to which a part of the rest is passed is one of the text. -/
theorem Fixes.after {f : Pos → Pos} {before rest passed tail : List Char} (fixes : Fixes f (before ++ rest))
    (isRest : rest = passed ++ tail) :
    f ((Pos.start.after before).after passed) = (Pos.start.after before).after passed := by
  rw [← Pos.after_append]
  exact fixes _ ⟨before ++ passed, tail, by rw [isRest, List.append_assoc], rfl⟩

theorem numberLexeme_fault {digits rest passed tail : List Char} {cause : Cause}
    (found : numberLexeme digits rest = .fault cause passed tail) :
    passed ++ tail = digits ++ rest ∧ ∀ f, cause.mapPos f = cause := by
  unfold numberLexeme at found
  split at found
  · cases found
    exact ⟨List.append_nil _, fun _ => rfl⟩
  · split at found
    · cases found
    · cases found
      exact ⟨List.append_assoc _ _ _, fun _ => rfl⟩
  · cases found

/-- A text that starts no token is refused after a front of it. -/
theorem lexeme_fault {c : Char} {rest passed tail : List Char} {cause : Cause}
    (found : lexeme c rest = .fault cause passed tail) :
    passed ++ tail = c :: rest ∧ ∀ f, cause.mapPos f = cause := by
  unfold lexeme at found
  split at found
  · cases found
  · split at found
    · obtain ⟨whole, plain⟩ := numberLexeme_fault found
      exact ⟨by rw [whole, List.cons_append, List.takeWhile_append_dropWhile], plain⟩
    · split at found
      · cases found
      · cases found
        exact ⟨rfl, fun _ => rfl⟩

theorem Cursor.scan_fault {cursor next : Cursor} {fault : Fault} (found : cursor.scan = .fault fault next) :
    (∃ passed tail, cursor.rest = passed ++ tail ∧ fault.pos = cursor.pos.after passed) ∧
      ∀ f, fault.cause.mapPos f = fault.cause := by
  have whole := splitGap_append false cursor.rest
  unfold Cursor.scan at found
  revert found whole
  generalize splitGap false cursor.rest = parts
  obtain ⟨gap, body⟩ := parts
  intro found whole
  cases body with
  | nil => cases found
  | cons c tail =>
      simp only at found
      split at found
      · cases found
      · rename_i cause passed rest refused
        cases found
        obtain ⟨front, plain⟩ := lexeme_fault refused
        refine ⟨⟨gap ++ passed, rest, ?_, (Pos.after_append _ _ _).symm⟩, plain⟩
        rw [List.append_assoc, front]
        exact whole.symm

/-- Tokens, the end of a text and faults of the scanner are at places of the text. -/
theorem Cursor.mapPos_tokenList {f : Pos → Pos} (cursor : Cursor) (before : List Char)
    (place : cursor.pos = Pos.start.after before) (fixes : Fixes f (before ++ cursor.rest)) :
    cursor.tokenList.tokens.map (Token.mapPos f) = cursor.tokenList.tokens ∧
      cursor.tokenList.ending.mapPos f = cursor.tokenList.ending := by
  fun_induction Cursor.tokenList cursor generalizing before with
  | case1 cursor token next found later =>
      rename_i ih
      obtain ⟨gap, whole, _, isPlace, nextPlace, _⟩ := Cursor.scan_token found
      have stays : f token.pos = token.pos := by
        rw [isPlace, place]
        exact fixes.after (whole.trans (List.append_assoc _ _ _))
      have nextBefore : next.pos = Pos.start.after (before ++ (gap ++ token.text.toList)) := by
        rw [nextPlace, isPlace, place, Pos.after_append, Pos.after_append]
      rw [whole, ← List.append_assoc] at fixes
      obtain ⟨tokens, ending⟩ := ih _ nextBefore fixes
      refine ⟨?_, ending⟩
      rw [List.map_cons, tokens, Token.mapPos, stays]
  | case2 cursor pos found =>
      obtain ⟨_, isPlace⟩ := Cursor.scan_endOfFile found
      refine ⟨rfl, congrArg Ending.endOfFile ?_⟩
      rw [isPlace, place]
      exact fixes.after (List.append_nil _).symm
  | case3 cursor fault next found =>
      obtain ⟨⟨passed, tail, isRest, isPlace⟩, plain⟩ := Cursor.scan_fault found
      have stays : f fault.pos = fault.pos := by
        rw [isPlace, place]
        exact fixes.after isRest
      refine ⟨rfl, congrArg Ending.fault ?_⟩
      rw [Fault.mapPos, plain, stays]

end Script

open Script

/-- A change of places that leaves those of the text alone leaves alone what comes of the text. -/
theorem mapPos_compile {f : Pos → Pos} {source : String} (fixes : Fixes f source.toList) :
    (compile source).mapPos f = compile source := by
  obtain ⟨tokens, ending⟩ := (Cursor.ofText source).mapPos_tokenList [] rfl fixes
  rw [compile_eq_ofParsed, Compilation.mapPos_ofParsed, Script.parse, ← Parser.script_mapPos, TokenList.ofText, tokens,
    ending]

/-- A text is refused at one of its places. -/
theorem inText_of_compile {source : String} {fault : Fault} (failed : (compile source).result = .error fault) :
    InText source.toList fault.pos := by
  classical
  by_contra outside
  -- all other places are moved to the next line
  let move (pos : Pos) : Pos := if InText source.toList pos then pos else ⟨pos.line + 1, pos.column⟩
  have same : (compile source).mapPos move = compile source := mapPos_compile fun pos inside => if_pos inside
  have stays : carry move id (compile source).result = (compile source).result := congrArg Compilation.result same
  rw [failed] at stays
  have moved : move fault.pos = fault.pos := congrArg Fault.pos (Except.error.inj stays)
  rw [show move fault.pos = _ from if_neg outside] at moved
  exact Nat.succ_ne_self _ (congrArg Pos.line moved)

theorem toList_ne_nil_of_compile {source : String} {fault : Fault} (failed : (compile source).result = .error fault) :
    source.toList ≠ [] := by
  intro isNil
  rw [String.toList_eq_nil_iff.mp isNil] at failed
  have built : (compile "").result.toOption.isSome = true := by decide +kernel
  rw [failed] at built
  cases built

/-! ## What is shown -/

/-- A refusal is shown: there is a line that it is about, the line is shown with a mark at the place, and beside the mark
stands the message, which has no influence on all the rest. -/
def Shown (name source : String) (fault : Fault) : Prop :=
  ∃ line returns excerpt, IsLine source.toList fault.pos.line line returns ∧
    Excerpt.at? source fault.pos = some excerpt ∧ Marks line fault.pos excerpt ∧ fault.cause.message ≠ "" ∧
    ∃ front back, ∀ message, message ≠ "" → (Diagnostic.mk name fault.pos message).snippet source =
      front ++ Diagnostic.lineRow excerpt ++ "\n" ++ Diagnostic.markRow excerpt ++ " " ++ Diagnostic.alarm message ++ back

/-- Every refusal of a text is shown, except at the end of a text that ends in a line feed. A refusal there is shown as a
title, without a line and without its message. -/
theorem shown_iff_of_compile {source : String} {fault : Fault} (failed : (compile source).result = .error fault)
    (name : String) :
    (Shown name source fault ↔ ¬ PastEnd source.toList fault.pos) ∧
      (PastEnd source.toList fault.pos → Excerpt.at? source fault.pos = none ∧
        (Diagnostic.ofFault name fault).snippet source = Diagnostic.title) := by
  obtain ⟨before, after, whole, place⟩ := inText_of_compile failed
  obtain ⟨earlier, left, right, later, rfl, rfl, around⟩ := exists_around before after
  rw [← place] at around
  have split : source.toList = earlier ++ (left ++ right ++ later) := by
    simpa only [List.append_assoc] using whole
  have pastEnd := around.pastEnd_iff (split ▸ toList_ne_nil_of_compile failed)
  rw [← split] at pastEnd
  have found := around.at?_eq split
  have lost (past : PastEnd source.toList fault.pos) : Excerpt.at? source fault.pos = none := by
    rw [found, if_pos (pastEnd.mp past)]
  refine ⟨⟨?_, fun inside => ?_⟩, fun past => ⟨lost past, Diagnostic.snippet_eq_title (lost past)⟩⟩
  · rintro ⟨_, _, excerpt, _, isExcerpt, _⟩ past
    cases isExcerpt.symm.trans (lost past)
  · rw [if_neg fun nothing => inside (pastEnd.mpr nothing)] at found
    obtain ⟨returns, isLine⟩ := around.isLine
    rw [← split] at isLine
    have counted : 0 < fault.pos.column := around.column ▸ Nat.succ_pos _
    exact ⟨_, returns, _, isLine, found, marks_ofLine counted _, fault.cause.message_ne_empty,
      Diagnostic.exists_snippet_eq name found⟩

/-- What a text is refused with if it ends where an integer is needed. -/
def integerMissing (pos : Pos) : Fault :=
  ⟨pos, .expected .integer (.endOfFile pos)⟩

/-- A field without a value is shown if it ends the text. -/
theorem shown_iff_of_compile_weight :
    (compile "weight").result = .error (integerMissing ⟨1, 7⟩) ∧ Shown "e.vs" "weight" (integerMissing ⟨1, 7⟩) := by
  have failed : (compile "weight").result = .error (integerMissing ⟨1, 7⟩) := by cbv
  refine ⟨failed, (shown_iff_of_compile failed "e.vs").1.mpr ?_⟩
  rintro ⟨last, _⟩
  exact absurd last (by decide +kernel)

/-- With a line feed after it, it is not shown. -/
theorem not_shown_weight :
    ¬ ∀ name source fault, (compile source).result = .error fault → Shown name source fault := by
  intro shown
  have failed : (compile "weight\n").result = .error (integerMissing ⟨2, 1⟩) := by cbv
  obtain ⟨_, _, excerpt, _, found, _⟩ := shown "e.vs" "weight\n" _ failed
  have missing : Excerpt.at? "weight\n" ⟨2, 1⟩ = none := by decide +kernel
  cases missing.symm.trans found

end MissionGraph
