import MissionGraph.Proofs.Ini.Sections
import MissionGraph.Record.Dot

/-!
# The labels of a drawing

A label is written between quotes, with a backslash before each quote inside it, but backslashes are written as they
are. So the label is read back up to its last quote exactly if an even number of backslashes stands before each quote
of the record and at the end of the record.
-/

namespace MissionGraph

namespace Text

/-! ## Quoted texts -/

/-- What stands before and behind the first quote that is not escaped. A backslash escapes the character right behind
it unless it is escaped itself; the flag says that the first character is escaped. -/
def cutQuote? (escaped : Bool) : List Char → Option (List Char × List Char)
  | [] => none
  | c :: rest =>
      if c = '"' ∧ escaped = false then some ([], rest)
      else (cutQuote? (c == '\\' && !escaped) rest).map fun parts => (c :: parts.1, parts.2)

/-- A text with a backslash before each quote. -/
def escapeQuotes (text : List Char) : List Char :=
  text.flatMap fun c => if c = '"' then ['\\', '"'] else [c]

/-- How many backslashes the text ends with. -/
def slashes (text : List Char) : Nat :=
  (text.reverse.takeWhile (· == '\\')).length

/-- An even number of backslashes stands right before each quote. -/
def QuotesEven (text : List Char) : Prop :=
  ∀ before after, text = before ++ '"' :: after → slashes before % 2 = 0

theorem slashes_concat (text : List Char) (c : Char) :
    slashes (text ++ [c]) = if c = '\\' then slashes text + 1 else 0 := by
  simp only [slashes, List.reverse_append, List.reverse_singleton, List.singleton_append, List.takeWhile_cons,
    beq_iff_eq]
  split <;> rfl

theorem cutQuote?_cons (escaped : Bool) (c : Char) (rest : List Char) :
    cutQuote? escaped (c :: rest) =
      if c = '"' ∧ escaped = false then some ([], rest)
      else (cutQuote? (c == '\\' && !escaped) rest).map fun parts => (c :: parts.1, parts.2) := rfl

theorem append_of_cutQuote? {escaped : Bool} {text before after : List Char}
    (cut : cutQuote? escaped text = some (before, after)) : text = before ++ '"' :: after := by
  induction text generalizing escaped before with
  | nil => cases cut
  | cons c rest ih =>
      rw [cutQuote?_cons] at cut
      split at cut
      · rename_i isQuote
        cases cut
        rw [isQuote.1]
        rfl
      · obtain ⟨parts, found, same⟩ := Option.map_eq_some_iff.mp cut
        cases same
        rw [ih found, List.cons_append]

/-- The quotes and the end of the text are even, with or without one more backslash in front of it. -/
def EvenAfter : Bool → List Char → Prop
  | odd, [] => odd = false
  | odd, c :: rest => if c = '"' then odd = false ∧ EvenAfter false rest else EvenAfter (c == '\\' && !odd) rest

theorem evenAfter_cons (odd : Bool) (c : Char) (rest : List Char) :
    EvenAfter odd (c :: rest) =
      if c = '"' then odd = false ∧ EvenAfter false rest else EvenAfter (c == '\\' && !odd) rest := rfl

theorem map_cons_eq_some_iff {found : Option (List Char × List Char)} {c : Char} {before after : List Char} :
    found.map (fun parts => (c :: parts.1, parts.2)) = some (c :: before, after) ↔ found = some (before, after) := by
  cases found with
  | none => simp
  | some parts => simp [Prod.ext_iff]

/-- In a text whose quotes are escaped, the quote behind it is the first that is not, exactly if its own quotes and its
end are even. -/
theorem cutQuote?_escapeQuotes_iff (odd : Bool) (text after : List Char) :
    cutQuote? odd (escapeQuotes text ++ '"' :: after) = some (escapeQuotes text, after) ↔ EvenAfter odd text := by
  induction text generalizing odd with
  | nil =>
      cases odd with
      | false => exact iff_of_true rfl rfl
      | true =>
          refine iff_of_false (fun cut => ?_) Bool.noConfusion
          obtain ⟨parts, _, same⟩ := Option.map_eq_some_iff.mp cut
          cases same
  | cons c rest ih =>
      by_cases isQuote : c = '"'
      · subst isQuote
        have escaped : escapeQuotes ('"' :: rest) = '\\' :: '"' :: escapeQuotes rest := rfl
        rw [escaped, evenAfter_cons, if_pos rfl, List.cons_append, List.cons_append, cutQuote?_cons, if_neg (by simp),
          map_cons_eq_some_iff, cutQuote?_cons]
        cases odd with
        | false =>
            rw [if_neg (by simp), map_cons_eq_some_iff, and_iff_right rfl]
            exact ih false
        | true =>
            -- the backslash in front and the added one make a pair, so that the quote is not escaped
            rw [if_pos (by simp)]
            exact iff_of_false (fun cut => by cases cut) fun both => Bool.noConfusion both.1
      · have escaped : escapeQuotes (c :: rest) = c :: escapeQuotes rest := by
          simp [escapeQuotes, isQuote]
        rw [escaped, evenAfter_cons, if_neg isQuote, List.cons_append, cutQuote?_cons,
          if_neg (fun both => isQuote both.1), map_cons_eq_some_iff]
        exact ih _

theorem evenAfter_iff (front rest : List Char) :
    EvenAfter (slashes front % 2 == 1) rest ↔
      (∀ before after, rest = before ++ '"' :: after → slashes (front ++ before) % 2 = 0) ∧
        slashes (front ++ rest) % 2 = 0 := by
  induction rest generalizing front with
  | nil => simp [EvenAfter]
  | cons c rest ih =>
      have later := ih (front ++ [c])
      simp only [List.append_assoc, List.singleton_append] at later
      have splits : (∀ before after, c :: rest = before ++ '"' :: after → slashes (front ++ before) % 2 = 0) ↔
          (c = '"' → slashes front % 2 = 0) ∧
            ∀ before after, rest = before ++ '"' :: after → slashes (front ++ c :: before) % 2 = 0 := by
        constructor
        · intro all
          refine ⟨fun isQuote => ?_, fun before after same => ?_⟩
          · simpa using all [] rest (by rw [isQuote]; rfl)
          · exact all (c :: before) after (by rw [same]; rfl)
        · rintro ⟨first, others⟩ before after same
          cases before with
          | nil =>
              rw [List.append_nil]
              exact first (List.cons.inj same).1
          | cons d before =>
              obtain ⟨rfl, sameRest⟩ := List.cons.inj same
              exact others before after sameRest
      rw [splits, and_assoc, ← later, evenAfter_cons, slashes_concat]
      by_cases isQuote : c = '"'
      · subst isQuote
        simp
      · by_cases isSlash : c = '\\'
        · subst isSlash
          have flips : ((slashes front + 1) % 2 == 1) = !(slashes front % 2 == 1) := by
            rcases Nat.mod_two_eq_zero_or_one (slashes front) with isEven | isOdd
            · rw [Nat.add_mod, isEven]
              rfl
            · rw [Nat.add_mod, isOdd]
              rfl
          simp [flips]
        · simp [isQuote, isSlash, beq_false_of_ne isSlash]

/-- A quoted text is read back whole exactly if its quotes and its end are even. -/
theorem cutQuote?_eq_iff (text after : List Char) :
    (cutQuote? false (escapeQuotes text ++ '"' :: after)).map Prod.snd = some after ↔
      QuotesEven text ∧ slashes text % 2 = 0 := by
  have whole : (cutQuote? false (escapeQuotes text ++ '"' :: after)).map Prod.snd = some after ↔
      cutQuote? false (escapeQuotes text ++ '"' :: after) = some (escapeQuotes text, after) := by
    constructor
    · intro rest
      obtain ⟨⟨before, _⟩, cut, rfl⟩ := Option.map_eq_some_iff.mp rest
      rw [cut, List.append_cancel_right (append_of_cutQuote? cut)]
    · intro cut
      rw [cut]
      rfl
  exact whole.trans ((cutQuote?_escapeQuotes_iff false text after).trans (evenAfter_iff [] text))

/-! ## Texts put together -/

/-- The text ends with a character other than a backslash and has no quotes. -/
def IsMark (mark : List Char) : Prop :=
  '"' ∉ mark ∧ ∃ front c, mark = front ++ [c] ∧ c ≠ '\\'

variable {first second mark : List Char}

theorem slashes_append (closed : slashes first = 0) (second : List Char) :
    slashes (first ++ second) = slashes second := by
  induction second using List.reverseRecOn with
  | nil => rw [List.append_nil, closed]; rfl
  | append_singleton text c ih => rw [← List.append_assoc, slashes_concat, slashes_concat, ih]

theorem slashes_eq_zero (noSlash : '\\' ∉ first) : slashes first = 0 := by
  rcases List.eq_nil_or_concat' first with rfl | ⟨front, c, rfl⟩
  · rfl
  · rw [slashes_concat, if_neg]
    rintro rfl
    exact noSlash (List.mem_append_right _ List.mem_cons_self)

theorem IsMark.slashes_eq_zero (isMark : IsMark mark) (first : List Char) : slashes (first ++ mark) = 0 := by
  obtain ⟨_, front, c, rfl, other⟩ := isMark
  rw [← List.append_assoc, slashes_concat, if_neg other]

theorem quotesEven_of_not_mem (noQuote : '"' ∉ first) : QuotesEven first := by
  rintro before after rfl
  exact absurd (List.mem_append_right _ List.mem_cons_self) noQuote

theorem quotesEven_append_iff (closed : slashes first = 0) :
    QuotesEven (first ++ second) ↔ QuotesEven first ∧ QuotesEven second := by
  constructor
  · intro even
    refine ⟨fun before after same => ?_, fun before after same => ?_⟩
    · exact even before (after ++ second) (by rw [same, List.append_assoc]; rfl)
    · rw [← slashes_append closed before]
      exact even (first ++ before) after (by rw [same, List.append_assoc])
  · rintro ⟨firstEven, secondEven⟩ before after same
    rcases List.append_eq_append_iff.mp same with ⟨middle, rfl, inSecond⟩ | ⟨middle, inFirst, rest⟩
    · rw [slashes_append closed]
      exact secondEven middle after inSecond
    · cases middle with
      | nil =>
          rw [List.append_nil] at inFirst
          rw [← inFirst, closed]
      | cons c middle =>
          obtain ⟨rfl, rest⟩ := List.cons.inj rest
          exact firstEven before middle inFirst

theorem IsMark.quotesEven_iff (isMark : IsMark mark) :
    QuotesEven (first ++ mark ++ second) ↔ QuotesEven first ∧ QuotesEven second := by
  rw [quotesEven_append_iff (isMark.slashes_eq_zero first)]
  refine and_congr_left fun _ => ⟨fun even before after same => ?_, fun even before after same => ?_⟩
  · exact even before (after ++ mark) (by rw [same, List.append_assoc]; rfl)
  · rcases List.append_eq_append_iff.mp same with ⟨middle, rfl, inMark⟩ | ⟨middle, inFirst, rest⟩
    · exact absurd (inMark ▸ List.mem_append_right _ List.mem_cons_self) isMark.1
    · cases middle with
      | nil =>
          rw [List.nil_append] at rest
          exact absurd (rest ▸ List.mem_cons_self) isMark.1
      | cons c middle =>
          obtain ⟨rfl, rest⟩ := List.cons.inj rest
          exact even before middle inFirst

theorem quotesEven_intercalate_iff (isMark : IsMark mark) (pieces : List (List Char)) :
    QuotesEven (mark.intercalate pieces) ↔ ∀ piece ∈ pieces, QuotesEven piece := by
  induction pieces with
  | nil => simpa using quotesEven_of_not_mem List.not_mem_nil
  | cons piece others ih =>
      cases others with
      | nil => simp
      | cons next others =>
          rw [List.intercalate_cons_cons, isMark.quotesEven_iff, ih, List.forall_mem_cons (a := piece)]

theorem slashes_intercalate (isMark : IsMark mark) (pieces : List (List Char)) :
    slashes (mark.intercalate pieces) = (pieces.getLast?.map slashes).getD 0 := by
  induction pieces with
  | nil => simp [slashes]
  | cons piece others ih =>
      cases others with
      | nil => simp
      | cons next others =>
          rw [List.intercalate_cons_cons, slashes_append (isMark.slashes_eq_zero piece), ih, List.getLast?_cons_cons]

end Text

/-- In each name and each value of the record an even number of backslashes stands before each quote, and the last value
ends with an even number of them. -/
structure Record.Quotable (record : Record) : Prop where
  names : ∀ entry ∈ record.entries, Text.QuotesEven entry.name.toList
  values : ∀ entry ∈ record.entries, ∀ value ∈ entry.values, Text.QuotesEven value.text.toList
  ending : ∀ entry ∈ record.entries.getLast?, ∀ value ∈ entry.values.getLast?,
    Text.slashes value.text.toList % 2 = 0

/-- No name among the entries and values of the record holds a line feed. -/
def Record.FeedFree (record : Record) : Prop :=
  ∀ entry ∈ record.entries, '\n' ∉ entry.name.toList ∧ ∀ text, Value.name text ∈ entry.values → '\n' ∉ text.toList

namespace Dot

open Text Ini

/-! ## The label of a record -/

/-- The line of an entry in a label. -/
def entryPart (entry : Entry) : List Char :=
  ['\\', 'n'] ++ entryLine entry.name.toList (entry.values.map fun value => value.text.toList)

theorem toList_label (record : Record) :
    (label record).toList = Number.toDigits record.id ++ record.entries.flatMap entryPart := by
  simp only [label, String.toList_append, String.toList_join, List.flatMap_map, Nat.repr, String.toList_ofList,
    toList_entryText]
  rfl

theorem isMark_break : IsMark ['\\', 'n'] :=
  ⟨by decide, ['\\'], 'n', rfl, by decide⟩

theorem isMark_equals : IsMark [' ', '=', ' '] :=
  ⟨by decide, [' ', '='], ' ', rfl, by decide⟩

theorem isMark_comma : IsMark [',', ' '] :=
  ⟨by decide, [','], ' ', rfl, by decide⟩

theorem quotesEven_entryPart_iff (front : List Char) (entry : Entry) :
    QuotesEven (front ++ entryPart entry) ↔ QuotesEven front ∧ QuotesEven entry.name.toList ∧
      ∀ value ∈ entry.values, QuotesEven value.text.toList := by
  rw [entryPart, ← List.append_assoc, isMark_break.quotesEven_iff, entryLine, isMark_equals.quotesEven_iff,
    quotesEven_intercalate_iff isMark_comma, List.forall_mem_map]

theorem slashes_entryPart (front : List Char) (entry : Entry) :
    slashes (front ++ entryPart entry) = (entry.values.getLast?.map fun value => slashes value.text.toList).getD 0 := by
  have closed := isMark_equals.slashes_eq_zero (front ++ ['\\', 'n'] ++ entry.name.toList)
  rw [entryPart, entryLine, ← List.append_assoc, ← List.append_assoc, ← List.append_assoc, slashes_append closed,
    slashes_intercalate isMark_comma, List.getLast?_map, Option.map_map]
  rfl

theorem quotesEven_entries_iff (front : List Char) (entries : List Entry) :
    QuotesEven (front ++ entries.flatMap entryPart) ↔ QuotesEven front ∧ ∀ entry ∈ entries,
      QuotesEven entry.name.toList ∧ ∀ value ∈ entry.values, QuotesEven value.text.toList := by
  induction entries generalizing front with
  | nil => simp
  | cons entry others ih =>
      rw [List.flatMap_cons, ← List.append_assoc, ih, quotesEven_entryPart_iff, List.forall_mem_cons, and_assoc]

theorem slashes_entries {front : List Char} (closed : slashes front = 0) (entries : List Entry) :
    slashes (front ++ entries.flatMap entryPart) =
      ((entries.getLast?.bind fun entry => entry.values.getLast?).map
        fun value => slashes value.text.toList).getD 0 := by
  rcases List.eq_nil_or_concat' entries with rfl | ⟨earlier, entry, rfl⟩
  · simpa using closed
  · rw [List.flatMap_append, List.flatMap_singleton, ← List.append_assoc, slashes_entryPart, List.getLast?_concat]
    rfl

/-- The quotes and the end of a label are even exactly if those of the record are. -/
theorem label_even_iff (record : Record) :
    QuotesEven (label record).toList ∧ slashes (label record).toList % 2 = 0 ↔ record.Quotable := by
  have digits := Ini.plain_of_digits (Number.digits_toDigits record.id)
  have closed : slashes (Number.toDigits record.id) = 0 := slashes_eq_zero (digits.not_mem (by decide))
  have noQuote : QuotesEven (Number.toDigits record.id) := quotesEven_of_not_mem (digits.not_mem (by decide))
  rw [toList_label, quotesEven_entries_iff, and_iff_right noQuote, slashes_entries closed]
  constructor
  · rintro ⟨even, ends⟩
    refine ⟨fun entry listed => (even entry listed).1, fun entry listed => (even entry listed).2, ?_⟩
    intro entry isLast value isLastValue
    rw [Option.mem_def] at isLast isLastValue
    simpa [isLast, isLastValue] using ends
  · rintro ⟨names, values, ending⟩
    refine ⟨fun entry listed => ⟨names entry listed, values entry listed⟩, ?_⟩
    cases isLast : record.entries.getLast? with
    | none => rfl
    | some entry =>
        cases isLastValue : entry.values.getLast? with
        | none => simp [isLastValue]
        | some value => simpa [isLastValue] using ending entry isLast value isLastValue

/-! ## The lines of a drawing -/

/-- What stands behind the label of a line: behind the first quote after the opening one that is not escaped. -/
def behindLabel? (line : List Char) : Option (List Char) :=
  (cut? '"' line).bind fun parts => (cutQuote? false parts.2).map Prod.snd

/-- The label of the line is one whole quoted text: the first quote behind the opening one that is not escaped is the
last character but two. -/
def WellQuoted (line : List Char) : Prop :=
  behindLabel? line = some [']', ';']

/-- The line of a node up to its label. -/
def opening (record : Record) : String :=
  "    n" ++ Nat.repr record.id ++ " [shape=" ++ shape record.kind ++ ", label="

theorem toList_repr (number : Nat) : (Nat.repr number).toList = Number.toDigits number := by
  rw [Nat.repr, String.toList_ofList]
  rfl

theorem toList_nodeLine (record : Record) :
    (nodeLine record).toList =
      (opening record).toList ++ '"' :: (escapeQuotes (label record).toList ++ '"' :: [']', ';']) := by
  have opens : ", label=\"".toList = ", label=".toList ++ ['"'] := by decide
  have closes : "\"];".toList = ['"', ']', ';'] := by decide
  simp only [nodeLine, opening, escape, String.toList_append, String.toList_ofList, toList_repr, opens, closes,
    List.append_assoc, List.singleton_append]
  rfl

theorem not_mem_opening {mark : Char} (isQuoteOrFeed : mark = '"' ∨ mark = '\n') (record : Record) :
    mark ∉ (opening record).toList := by
  have notPlain : isPlain mark = false := by
    rcases isQuoteOrFeed with rfl | rfl <;> decide
  have digits := (plain_of_digits (Number.digits_toDigits record.id)).not_mem notPlain
  have shapes : mark ∉ (shape record.kind).toList := by
    cases record.kind <;> rcases isQuoteOrFeed with rfl | rfl <;> decide
  have words : mark ∉ "    n".toList ∧ mark ∉ " [shape=".toList ∧ mark ∉ ", label=".toList := by
    rcases isQuoteOrFeed with rfl | rfl <;> decide
  simp only [opening, String.toList_append, toList_repr, List.mem_append, not_or]
  exact ⟨⟨⟨⟨words.1, digits⟩, words.2.1⟩, shapes⟩, words.2.2⟩

theorem wellQuoted_nodeLine_iff (record : Record) : WellQuoted (nodeLine record).toList ↔ record.Quotable := by
  have noQuote : '"' ∉ (opening record).toList := not_mem_opening (.inl rfl) record
  rw [WellQuoted, behindLabel?, toList_nodeLine, cut?_append noQuote, Option.bind_some, ← label_even_iff]
  exact cutQuote?_eq_iff (label record).toList [']', ';']

theorem mem_escapeQuotes {text : List Char} {c : Char} (member : c ∈ escapeQuotes text) : c ∈ text ∨ c = '\\' := by
  obtain ⟨d, inText, inPart⟩ := List.mem_flatMap.mp member
  split at inPart
  · rename_i isQuote
    rcases List.mem_cons.mp inPart with isSlash | inLast
    · exact .inr isSlash
    · rw [List.mem_singleton.mp inLast, ← isQuote]
      exact .inl inText
  · rw [List.mem_singleton.mp inPart]
    exact .inl inText

theorem feed_not_mem_value {value : Value} (names : ∀ text, value = .name text → '\n' ∉ text.toList) :
    '\n' ∉ value.text.toList := by
  cases value with
  | int value => exact (plain_intText _).not_mem (by decide)
  | float value =>
      cases value with
      | finite value =>
          rw [Value.text, Number.Single.text, String.toList_ofList]
          exact (plain_finite value).not_mem (by decide)
      | infinite negative => cases negative <;> decide
      | undefined => decide
  | bool value => cases value <;> decide
  | name text => exact names text rfl

theorem feed_not_mem_label {record : Record} (feedFree : record.FeedFree) : '\n' ∉ (label record).toList := by
  have digits : '\n' ∉ Number.toDigits record.id :=
    (plain_of_digits (Number.digits_toDigits record.id)).not_mem (by decide)
  rw [toList_label, List.mem_append, not_or]
  refine ⟨digits, fun member => ?_⟩
  obtain ⟨entry, listed, inPart⟩ := List.mem_flatMap.mp member
  rcases List.mem_append.mp inPart with inBreak | inLine
  · exact absurd inBreak (by decide)
  · obtain ⟨name, names⟩ := feedFree entry listed
    refine not_mem_entryLine name (List.forall_mem_map.mpr fun value isValue => ?_) (by decide) inLine
    exact feed_not_mem_value fun text isName => names text (isName ▸ isValue)

theorem feed_not_mem_nodeLine {record : Record} (feedFree : record.FeedFree) : '\n' ∉ (nodeLine record).toList := by
  have inOpening : '\n' ∉ (opening record).toList := not_mem_opening (.inr rfl) record
  have inLabel : '\n' ∉ escapeQuotes (label record).toList := fun member =>
    (mem_escapeQuotes member).elim (feed_not_mem_label feedFree) (by decide)
  simp [toList_nodeLine, inOpening, inLabel]

theorem feed_not_mem_arrow (source target : NodeId) : '\n' ∉ (arrow source target).toList := by
  have digits (number : Nat) : '\n' ∉ Number.toDigits number :=
    (plain_of_digits (Number.digits_toDigits number)).not_mem (by decide)
  have start : '\n' ∉ "    n".toList := by decide
  have middle : '\n' ∉ " -> n".toList := by decide
  simp only [arrow, String.toList_append, toList_repr, List.mem_append, not_or]
  exact ⟨⟨⟨start, digits source⟩, middle⟩, digits target⟩

theorem feed_not_mem_arrowLines (record : Record) : ∀ line ∈ arrowLines record, '\n' ∉ line.toList := by
  have labelled (source target : NodeId) {ending : String} (free : '\n' ∉ ending.toList) :
      '\n' ∉ (arrow source target ++ ending).toList := by
    rw [String.toList_append, List.mem_append, not_or]
    exact ⟨feed_not_mem_arrow source target, free⟩
  have plain : ∀ line ∈ record.children.map (fun child => arrow record.id child ++ ";"), '\n' ∉ line.toList :=
    List.forall_mem_map.mpr fun child _ => labelled record.id child (by decide)
  unfold arrowLines
  cases record.kind with
  | data => exact plain
  | documentation => exact plain
  | decision =>
      cases record.children with
      | nil => exact fun _ member => absurd member List.not_mem_nil
      | cons first others =>
          refine List.forall_mem_cons.mpr ⟨labelled record.id first (by decide), ?_⟩
          exact List.forall_mem_map.mpr fun child _ => labelled record.id child (by decide)

theorem feed_not_mem_lines {records : List Record} (feedFree : ∀ record ∈ records, record.FeedFree) :
    ∀ line ∈ lines records, '\n' ∉ line.toList := by
  refine List.forall_mem_append.mpr ⟨List.forall_mem_append.mpr ⟨List.forall_mem_append.mpr ⟨?_, ?_⟩, ?_⟩, ?_⟩
  · decide
  · exact List.forall_mem_map.mpr fun record listed => feed_not_mem_nodeLine (feedFree record listed)
  · intro line member
    obtain ⟨record, _, inArrows⟩ := List.mem_flatMap.mp member
    exact feed_not_mem_arrowLines record line inArrows
  · decide

theorem lines_write {records : List Record} (feedFree : ∀ record ∈ records, record.FeedFree) :
    Text.lines (write records).toList = (lines records).map String.toList := by
  have text : (write records).toList = ((lines records).map String.toList).flatMap fun line => line ++ ['\n'] := by
    simp [write, String.toList_join, List.flatMap_map]
  rw [text, Text.lines_flatMap]
  exact List.forall_mem_map.mpr (feed_not_mem_lines feedFree)

/-- The drawing has a line for each record, the first two lines apart. Its label is one whole quoted text, up to the
quote before the end of the line, exactly if the record is quotable. -/
theorem wellQuoted_iff_quotable {records : List Record} (feedFree : ∀ record ∈ records, record.FeedFree)
    {index : Nat} {record : Record} (found : records[index]? = some record) :
    ∃ line, (Text.lines (write records).toList)[index + 2]? = some line ∧ (opening record).toList <+: line ∧
      (WellQuoted line ↔ record.Quotable) := by
  refine ⟨(nodeLine record).toList, ?_, ?_, wellQuoted_nodeLine_iff record⟩
  · have within : index < (records.map nodeLine).length := by
      rw [List.length_map]
      exact (List.getElem?_eq_some_iff.mp found).1
    have isLine : (lines records)[index + 2]? = some (nodeLine record) := by
      rw [lines, List.append_assoc, List.append_assoc]
      show (records.map nodeLine ++ _)[index]? = _
      rw [List.getElem?_append_left within, List.getElem?_map, found]
      rfl
    rw [lines_write feedFree, List.getElem?_map, isLine]
    rfl
  · rw [toList_nodeLine]
    exact List.prefix_append _ _

/-- Two backslashes before a quote, one before a quote, and one at the end. -/
def slashedRecords : List Record :=
  [⟨.documentation, 2, [⟨"documentation", [.name "a\\\\\"b"]⟩], []⟩,
    ⟨.documentation, 3, [⟨"documentation", [.name "a\\\"b"]⟩], []⟩,
    ⟨.documentation, 4, [⟨"documentation", [.name "a\\"]⟩], []⟩]

theorem feedFree_slashedRecords : ∀ record ∈ slashedRecords, record.FeedFree := by
  simp [slashedRecords, Record.FeedFree]

/-- Behind the opening quotes of the drawing's lines. -/
theorem behindLabel?_slashedRecords {index : Nat} {line : List Char}
    (isLine : (Text.lines (write slashedRecords).toList)[index]? = some line) :
    [none, none, some [']', ';'], some ['b', '"', ']', ';'], none, none][index]? =
      some (behindLabel? line) := by
  have read : (Text.lines (write slashedRecords).toList).map behindLabel? =
      [none, none, some [']', ';'], some ['b', '"', ']', ';'], none, none] := by
    decide +kernel
  rw [← read, List.getElem?_map, isLine]
  rfl

/-- The label of the first record is whole, that of the second ends early, and that of the third does not end. -/
theorem wellQuoted_iff_quotable_slashed : (∀ record ∈ slashedRecords, record.FeedFree) ∧
    (∃ record, slashedRecords[0]? = some record ∧ record.Quotable) ∧
      (∃ record, slashedRecords[1]? = some record ∧ ¬ record.Quotable) ∧
      ∃ record, slashedRecords[2]? = some record ∧ ¬ record.Quotable := by
  refine ⟨feedFree_slashedRecords, ⟨_, rfl, ?_⟩, ⟨_, rfl, ?_⟩, ⟨_, rfl, ?_⟩⟩
  · obtain ⟨line, isLine, _, iff⟩ := @wellQuoted_iff_quotable slashedRecords feedFree_slashedRecords 0 _ rfl
    exact iff.mp (Option.some.inj (behindLabel?_slashedRecords isLine)).symm
  · obtain ⟨line, isLine, _, iff⟩ := @wellQuoted_iff_quotable slashedRecords feedFree_slashedRecords 1 _ rfl
    intro quotable
    cases (Option.some.inj (behindLabel?_slashedRecords isLine)).trans (iff.mpr quotable)
  · obtain ⟨line, isLine, _, iff⟩ := @wellQuoted_iff_quotable slashedRecords feedFree_slashedRecords 2 _ rfl
    intro quotable
    cases (Option.some.inj (behindLabel?_slashedRecords isLine)).trans (iff.mpr quotable)

/-- A backslash at the end of the last value escapes the quote that should end the label. -/
theorem not_wellQuoted :
    ¬ ∀ records : List Record, (∀ record ∈ records, record.FeedFree) → ∀ index record, records[index]? = some record →
      ∃ line, (Text.lines (write records).toList)[index + 2]? = some line ∧ WellQuoted line := by
  intro whole
  obtain ⟨line, isLine, ends⟩ := whole slashedRecords feedFree_slashedRecords 2 _ rfl
  cases (Option.some.inj (behindLabel?_slashedRecords isLine)).trans ends

end Dot

end MissionGraph
