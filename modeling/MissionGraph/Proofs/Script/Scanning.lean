import MissionGraph.Proofs.Script.WellFormed
import MissionGraph.Proofs.Text.Plain
import MissionGraph.Text.Writer

/-!
# Scanning a written text

Which words the scanner takes from the pieces that written scripts are made of, whatever text follows
them. A piece that ends in a name or a number must be followed by a character that does not continue it.
-/

namespace MissionGraph.Script

open Number (isDigit Digits)

/-- A token without its place. -/
structure Word where
  kind : TokenKind
  text : String
deriving DecidableEq

namespace Word

def name (text : String) : Word := ⟨.identifier, text⟩

def integer (text : String) : Word := ⟨.integer, text⟩

def comma : Word := ⟨.comma, ","⟩

def leftParen : Word := ⟨.leftParen, "("⟩

def rightParen : Word := ⟨.rightParen, ")"⟩

def semicolon : Word := ⟨.semicolon, ";"⟩

end Word

def Token.word (token : Token) : Word :=
  ⟨token.kind, token.text⟩

/-- The scanner takes these words from the text and comes to its end. -/
def Scans (text : List Char) (words : List Word) : Prop :=
  ∀ pos, ∃ tokens stop, (Cursor.mk text pos).tokenList = ⟨tokens, .endOfFile stop⟩ ∧
    tokens.map Token.word = words

namespace Cursor

variable {cursor next other : Cursor} {token : Token} {pos : Pos}

theorem tokenList_of_token (found : cursor.scan = .token token next) :
    cursor.tokenList = ⟨token :: next.tokenList.tokens, next.tokenList.ending⟩ := by
  rw [tokenList]
  split <;> simp_all

theorem tokenList_of_endOfFile (found : cursor.scan = .endOfFile pos) :
    cursor.tokenList = ⟨[], .endOfFile pos⟩ := by
  rw [tokenList]
  split <;> simp_all

theorem tokenList_of_fault {fault : Fault} (found : cursor.scan = .fault fault next) :
    cursor.tokenList = ⟨[], .fault fault⟩ := by
  rw [tokenList]
  split <;> simp_all

theorem tokenList_congr (same : cursor.scan = other.scan) : cursor.tokenList = other.tokenList := by
  rw [tokenList, tokenList]
  split <;> split <;> simp_all

end Cursor

/-! ## Gaps -/

theorem splitGap_hash (rest : List Char) :
    splitGap false ('#' :: rest) = ('#' :: (splitGap true rest).1, (splitGap true rest).2) := by
  rw [splitGap]
  rfl

theorem splitGap_blank {c : Char} (blank : Text.isBlank c = true) (plain : c ≠ '#') (rest : List Char) :
    splitGap false (c :: rest) = (c :: (splitGap false rest).1, (splitGap false rest).2) := by
  rw [splitGap, beq_false_of_ne plain, blank]
  rfl

theorem splitGap_visible {c : Char} (visible : Text.isBlank c = false) (plain : c ≠ '#') (rest : List Char) :
    splitGap false (c :: rest) = ([], c :: rest) := by
  rw [splitGap, beq_false_of_ne plain, visible]
  rfl

theorem splitGap_comment {c : Char} (sameLine : c ≠ '\n') (rest : List Char) :
    splitGap true (c :: rest) = (c :: (splitGap true rest).1, (splitGap true rest).2) := by
  rw [splitGap, bne_iff_ne.mpr sameLine]
  rfl

theorem splitGap_feed (inComment : Bool) (rest : List Char) :
    splitGap inComment ('\n' :: rest) = ('\n' :: (splitGap false rest).1, (splitGap false rest).2) := by
  cases inComment with
  | false => exact splitGap_blank (by decide) (by decide) rest
  | true =>
      rw [splitGap]
      rfl

/-- The scanner passes over the piece wherever a token could start. -/
def Skipped (gap : List Char) : Prop :=
  ∀ rest, splitGap false (gap ++ rest) = (gap ++ (splitGap false rest).1, (splitGap false rest).2)

theorem skipped_nil : Skipped [] :=
  fun _ => rfl

theorem Skipped.append {first second : List Char} (skipped : Skipped first) (later : Skipped second) :
    Skipped (first ++ second) := by
  intro rest
  rw [List.append_assoc, skipped, later, List.append_assoc]

theorem skipped_blank {c : Char} (blank : Text.isBlank c = true) (plain : c ≠ '#') : Skipped [c] :=
  splitGap_blank blank plain

theorem skipped_replicate (count : Nat) : Skipped (List.replicate count ' ') := by
  induction count with
  | zero => exact skipped_nil
  | succ count ih => exact (skipped_blank (by decide) (by decide) : Skipped [' ']).append ih

/-- A comment with the line feed that ends it. -/
theorem skipped_comment {line : List Char} (oneLine : '\n' ∉ line) : Skipped ('#' :: line ++ ['\n']) := by
  intro rest
  have inside : splitGap true (line ++ '\n' :: rest) =
      (line ++ '\n' :: (splitGap false rest).1, (splitGap false rest).2) := by
    induction line with
    | nil => exact splitGap_feed true rest
    | cons c line ih =>
        obtain ⟨notFeed, others⟩ := List.ne_and_not_mem_of_not_mem_cons oneLine
        rw [List.cons_append, splitGap_comment (Ne.symm notFeed), ih others]
        rfl
  rw [List.cons_append, List.cons_append, splitGap_hash, List.append_assoc, List.singleton_append, inside]
  simp

theorem Skipped.scans {gap text : List Char} {words : List Word} (skipped : Skipped gap)
    (scans : Scans text words) : Scans (gap ++ text) words := by
  intro pos
  have same : (Cursor.mk (gap ++ text) pos).scan = (Cursor.mk text (pos.after gap)).scan := by
    simp only [Cursor.scan, skipped text, Pos.after_append]
  rw [Cursor.tokenList_congr same]
  exact scans _

theorem scans_nil : Scans [] [] := by
  intro pos
  exact ⟨[], pos, Cursor.tokenList_of_endOfFile rfl, rfl⟩

/-! ## Tokens -/

/-- A token starts at this character. -/
def Starts (c : Char) : Prop :=
  isNamePart c = true ∨ (mark? c).isSome = true

theorem Starts.not_gap {c : Char} (starts : Starts c) : (c == '#' || Text.isBlank c) = false := by
  have code : c.toNat ≠ 35 ∧ Text.isBlank c = false := by
    rcases starts with part | isMark
    · have range := (isNamePart_iff c).mp part
      refine ⟨by omega, ?_⟩
      simp only [Text.isBlank, Text.blankRanges, List.any_cons, List.any_nil, Bool.or_eq_false_iff,
        Bool.and_eq_false_iff, decide_eq_false_iff_not, and_true]
      omega
    · unfold mark? at isMark
      split at isMark
      · subst c
        decide
      · split at isMark
        · subst c
          decide
        · split at isMark
          · subst c
            decide
          · split at isMark
            · subst c
              decide
            · cases isMark
  rw [Bool.or_eq_false_iff]
  refine ⟨?_, code.2⟩
  rw [beq_eq_false_iff_ne]
  rintro rfl
  exact code.1 rfl

/-- A token in front of a text that is scanned. -/
theorem Scans.token {c : Char} {tail text rest : List Char} {kind : TokenKind} {words : List Word}
    (starts : Starts c) (taken : lexeme c tail = .token kind text rest) (scans : Scans rest words) :
    Scans (c :: tail) (⟨kind, String.ofList text⟩ :: words) := by
  intro pos
  have noGap : splitGap false (c :: tail) = ([], c :: tail) := by
    rw [splitGap, Bool.false_or, starts.not_gap]
    rfl
  have found : (Cursor.mk (c :: tail) pos).scan =
      .token ⟨kind, String.ofList text, pos⟩ ⟨rest, pos.after text⟩ := by
    simp only [Cursor.scan, noGap, Pos.after_nil, taken]
  obtain ⟨tokens, stop, listed, sameWords⟩ := scans (pos.after text)
  refine ⟨⟨kind, String.ofList text, pos⟩ :: tokens, stop, ?_, ?_⟩
  · rw [Cursor.tokenList_of_token found, listed]
  · rw [List.map_cons, sameWords]
    rfl

/-- The text does not go on with a name or number that stands in front of it. -/
def Parted (rest : List Char) : Prop :=
  ∀ c ∈ rest.head?, isNamePart c = false ∧ c ≠ '.'

theorem parted_cons {c : Char} {rest : List Char} (other : isNamePart c = false) (notPoint : c ≠ '.') :
    Parted (c :: rest) := by
  rintro _ ⟨⟩
  exact ⟨other, notPoint⟩

/-- The characters of a run end where the text parts. -/
theorem takeWhile_run {p : Char → Bool} {run rest : List Char} (all : ∀ c ∈ run, p c = true)
    (stops : ∀ c ∈ rest.head?, p c = false) :
    (run ++ rest).takeWhile p = run ∧ (run ++ rest).dropWhile p = rest := by
  rw [List.takeWhile_append_of_pos all, List.dropWhile_append_of_pos all]
  cases rest with
  | nil => exact ⟨List.append_nil run, rfl⟩
  | cons c rest =>
      have stop : p c = false := stops c rfl
      simp [stop]

theorem Parted.noDigit {rest : List Char} (parted : Parted rest) : ∀ c ∈ rest.head?, isDigit c = false := by
  intro c first
  have other := (parted c first).1
  cases digit : isDigit c with
  | false => rfl
  | true => rw [isNamePart_of_isDigit digit] at other; cases other

theorem mark?_eq_none {c : Char} (part : isNamePart c = true) : mark? c = none := by
  have range := (isNamePart_iff c).mp part
  have other {d : Char} (below : d.toNat < 48 ∨ d.toNat = 59) : c ≠ d := by
    rintro rfl
    omega
  rw [mark?, if_neg (other (by decide)), if_neg (other (by decide)), if_neg (other (by decide)),
    if_neg (other (by decide))]

theorem Scans.name {name : String} (isName : isName name = true) {rest : List Char} {words : List Word}
    (parted : Parted rest) (scans : Scans rest words) :
    Scans (name.toList ++ rest) (.name name :: words) := by
  have same : String.ofList name.toList = name := String.ofList_toList
  unfold Script.isName at isName
  cases chars : name.toList with
  | nil => rw [chars] at isName; cases isName
  | cons c tail =>
      rw [chars] at isName same
      simp only [Bool.and_eq_true, List.all_eq_true] at isName
      obtain ⟨start, parts⟩ := isName
      have isPart := isNamePart_of_isNameStart start
      obtain ⟨taken, dropped⟩ := takeWhile_run parts fun d first => (parted d first).1
      have found : lexeme c (tail ++ rest) = .token .identifier (c :: tail) rest := by
        rw [lexeme, mark?_eq_none isPart]
        simp only [isDigit_eq_false start, start, taken, dropped, if_true, Bool.false_eq_true, if_false]
      have scanned := Scans.token (.inl isPart) found scans
      rwa [same] at scanned

/-- A number in front of a text that is scanned, given how it is taken apart. -/
theorem Scans.number {digits tail text rest : List Char} {kind : TokenKind} {words : List Word}
    (whole : Digits digits) (stops : ∀ c ∈ tail.head?, isDigit c = false)
    (taken : numberLexeme digits tail = .token kind text rest) (scans : Scans rest words) :
    Scans (digits ++ tail) (⟨kind, String.ofList text⟩ :: words) := by
  obtain ⟨nonempty, all⟩ := whole
  cases digits with
  | nil => exact absurd rfl nonempty
  | cons c more =>
      have digit := all c List.mem_cons_self
      have isPart := isNamePart_of_isDigit digit
      obtain ⟨run, after⟩ := takeWhile_run (fun d member => all d (List.mem_cons_of_mem _ member)) stops
      have found : lexeme c (more ++ tail) = .token kind text rest := by
        rw [lexeme, mark?_eq_none isPart]
        simp only [digit, run, after, if_true, taken]
      exact Scans.token (.inl isPart) found scans

theorem Scans.integer {digits rest : List Char} {words : List Word} (whole : Digits digits)
    (parted : Parted rest) (scans : Scans rest words) :
    Scans (digits ++ rest) (.integer (String.ofList digits) :: words) := by
  refine Scans.number whole parted.noDigit ?_ scans
  unfold numberLexeme
  split
  · exact absurd rfl (parted '.' rfl).2
  · exact absurd rfl (parted '.' rfl).2
  · rfl

theorem Scans.fraction {whole fraction rest : List Char} {words : List Word} (isWhole : Digits whole)
    (isFraction : Digits fraction) (parted : Parted rest) (scans : Scans rest words) :
    Scans (whole ++ '.' :: fraction ++ rest) (⟨.float, String.ofList (whole ++ '.' :: fraction)⟩ :: words) := by
  obtain ⟨nonempty, all⟩ := isFraction
  cases fraction with
  | nil => exact absurd rfl nonempty
  | cons d more =>
      obtain ⟨run, after⟩ := takeWhile_run all parted.noDigit
      rw [List.append_assoc]
      refine Scans.number isWhole (fun c first => ?_) ?_ scans
      · cases first
        decide
      · rw [List.cons_append] at run after
        rw [List.cons_append, List.cons_append, numberLexeme]
        simp only [all d List.mem_cons_self, run, after, if_true]

theorem Scans.mark {c : Char} {kind : TokenKind} (isMark : mark? c = some kind) {rest : List Char}
    {words : List Word} (scans : Scans rest words) : Scans (c :: rest) (⟨kind, c.toString⟩ :: words) := by
  have found : lexeme c rest = .token kind [c] rest := by
    rw [lexeme, isMark]
  exact Scans.token (.inr (by rw [isMark]; rfl)) found scans

/-! ## Pieces of a text -/

/-- The piece spells the words in front of every text that does not continue its last word. -/
def Spells (piece : String) (words : List Word) : Prop :=
  ∀ rest later, Parted rest → Scans rest later → Scans (piece.toList ++ rest) (words ++ later)

/-- The piece spells the words whatever text follows it. -/
def Closes (piece : String) (words : List Word) : Prop :=
  ∀ rest later, Scans rest later → Scans (piece.toList ++ rest) (words ++ later)

theorem Closes.spells {piece : String} {words : List Word} (closes : Closes piece words) : Spells piece words :=
  fun rest later _ scans => closes rest later scans

theorem closes_empty : Closes "" [] :=
  fun _ _ scans => scans

theorem Closes.append {first second : String} {words others : List Word} (closes : Closes first words)
    (later : Closes second others) : Closes (first ++ second) (words ++ others) := by
  intro rest after scans
  rw [String.toList_append, List.append_assoc, List.append_assoc]
  exact closes _ _ (later _ _ scans)

theorem Closes.append_spells {first second : String} {words others : List Word} (closes : Closes first words)
    (later : Spells second others) : Spells (first ++ second) (words ++ others) := by
  intro rest after parted scans
  rw [String.toList_append, List.append_assoc, List.append_assoc]
  exact closes _ _ (later _ _ parted scans)

/-- A piece that starts with a mark or a blank closes the piece before it. -/
theorem Spells.append {first second : String} {words others : List Word} (spells : Spells first words)
    (later : Spells second others) (nonempty : second ≠ "") (parts : Parted second.toList) :
    Spells (first ++ second) (words ++ others) := by
  intro rest after parted scans
  rw [String.toList_append, List.append_assoc, List.append_assoc]
  refine spells _ _ ?_ (later _ _ parted scans)
  cases chars : second.toList with
  | nil => exact absurd (String.toList_eq_nil_iff.mp chars) nonempty
  | cons c tail =>
      rw [chars] at parts
      exact fun d first => parts d first

theorem Spells.append_closes {first second : String} {words others : List Word} (spells : Spells first words)
    (later : Closes second others) (nonempty : second ≠ "") (parts : Parted second.toList) :
    Closes (first ++ second) (words ++ others) := by
  intro rest after scans
  rw [String.toList_append, List.append_assoc, List.append_assoc]
  refine spells _ _ ?_ (later _ _ scans)
  cases chars : second.toList with
  | nil => exact absurd (String.toList_eq_nil_iff.mp chars) nonempty
  | cons c tail =>
      rw [chars] at parts
      exact fun d first => parts d first

theorem spells_name (name : String) (isName : isName name = true) : Spells name [.name name] :=
  fun _ _ parted scans => scans.name isName parted

theorem Skipped.closes (gap : String) (skipped : Skipped gap.toList) : Closes gap [] :=
  fun _ _ scans => skipped.scans scans

theorem closes_space : Closes " " [] :=
  Skipped.closes " " (skipped_blank (by decide) (by decide))

theorem closes_comma : Closes "," [.comma] :=
  fun _ _ scans => scans.mark rfl

theorem closes_leftParen : Closes "(" [.leftParen] :=
  fun _ _ scans => scans.mark rfl

theorem closes_rightParen : Closes ")" [.rightParen] :=
  fun _ _ scans => scans.mark rfl

theorem closes_semicolon : Closes ";" [.semicolon] :=
  fun _ _ scans => scans.mark rfl

end MissionGraph.Script
