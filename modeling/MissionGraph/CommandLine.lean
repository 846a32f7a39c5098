import MissionGraph.Session

/-!
# The command line

Three commands: a script is compiled to records, records are decompiled to a script, and records are
walked through. Options come after the command, in any order.
-/

namespace MissionGraph.CommandLine

open Play (Params)

/-- The forms in which records are written. -/
inductive Format where
  | ini
  | dot
deriving DecidableEq

namespace Format

def ofWord? : String → Option Format
  | "ini" => some .ini
  | "dot" => some .dot
  | _ => none

end Format

/-- What is to be done with the text of a file. -/
inductive Command where
  | compile (format : Format)
  | decompile (indent : Nat)
  | run (seed : UInt64) (trace : Bool) (params : Params)

namespace Command

/-- The result of a command on the text of a file with the given name. -/
def execute (command : Command) (name text : String) : Attempt String :=
  match command with
  | .compile .ini => (Session.start.addScript name text).map Session.ini
  | .compile .dot => (Session.start.addScript name text).map Session.dot
  | .decompile indent =>
      let session : Session := ⟨[], { Options.standard with indent := indent }⟩
      (session.addRecords text).andThen Session.decompile
  | .run seed trace params =>
      let session : Session := ⟨[], { Options.standard with seed := seed, trace := trace }⟩
      ((session.addRecords text).andThen fun loaded => loaded.run params).map Play.Report.text

end Command

/-- The name that stands for the standard input or output. -/
def standardStream : String := "-"

/-- A command with the files that it reads and writes. -/
structure Invocation where
  command : Command
  file : String
  output : String

/-- How an option is written. -/
structure OptionForm where
  long : String
  short : Option Char
  takesValue : Bool
  mayRepeat : Bool
deriving DecidableEq

namespace OptionForm

def file : OptionForm := ⟨"file", some 'f', true, false⟩

def output : OptionForm := ⟨"output", some 'o', true, false⟩

def format : OptionForm := ⟨"format", none, true, false⟩

def indent : OptionForm := ⟨"indent", none, true, false⟩

def seed : OptionForm := ⟨"seed", none, true, false⟩

def offerGroup : OptionForm := ⟨"offer-group", none, true, false⟩

def condition : OptionForm := ⟨"set", none, true, true⟩

def trace : OptionForm := ⟨"trace", none, false, false⟩

/-- A long option: its name, and the value after an equals sign if there is one. -/
def readLong? (forms : List OptionForm) (body : List Char) : Option (OptionForm × Option String) :=
  match Text.cut? '=' body with
  | none => (forms.find? fun form => form.long.toList == body).map fun form => (form, none)
  | some (name, value) =>
      (forms.find? fun form => form.takesValue && form.long.toList == name).map fun form =>
        (form, some (String.ofList value))

/-- A short option: its letter, and the value attached to it if there is one. -/
def readShort? (forms : List OptionForm) (letter : Char) (attached : List Char) :
    Option (OptionForm × Option String) :=
  (forms.find? fun form => form.short == some letter).map fun form =>
    match attached with
    | [] => (form, none)
    | '=' :: value => (form, some (String.ofList value))
    | value => (form, some (String.ofList value))

/-- The option that a word names, and the value that it carries. -/
def read? (forms : List OptionForm) (word : String) : Option (OptionForm × Option String) :=
  match word.toList with
  | '-' :: '-' :: body => readLong? forms body
  | '-' :: letter :: attached => readShort? forms letter attached
  | _ => none

end OptionForm

/-- The word starts with a dash and is not the name of a standard stream. -/
def looksLikeOption (word : String) : Bool :=
  word.toList.head? == some '-' && word != standardStream

/-- The options in a list of words, each with its value. Two dashes may end the list. -/
def readOptions? (forms : List OptionForm) : List String → Option (List (OptionForm × String))
  | [] => some []
  | word :: rest =>
      if word = "--" then
        if rest.isEmpty then some [] else none
      else
        match OptionForm.read? forms word with
        | none => none
        | some (form, some value) => (readOptions? forms rest).map ((form, value) :: ·)
        | some (form, none) =>
            if form.takesValue then
              match rest with
              | [] => none
              | value :: others =>
                  if looksLikeOption value then none
                  else (readOptions? forms others).map ((form, value) :: ·)
            else (readOptions? forms rest).map ((form, "") :: ·)

/-- The options of a command line, of which only some may be repeated. -/
structure Given where
  options : List (OptionForm × String)

namespace Given

/-- The values of an option in the order in which they were given. -/
def values (given : Given) (form : OptionForm) : List String :=
  (given.options.filter fun option => option.1 == form).map Prod.snd

def value? (given : Given) (form : OptionForm) : Option String :=
  (given.values form).head?

/-- The value of an option read in some way, or its default. -/
def valueOr? {α : Type} (given : Given) (form : OptionForm) (default : α) (read? : String → Option α) :
    Option α :=
  match given.value? form with
  | none => some default
  | some word => read? word

/-- The options that the words give, if none is repeated that must not be. -/
def ofWords? (forms : List OptionForm) (words : List String) : Option Given := do
  let options ← readOptions? forms words
  let single := (options.map Prod.fst).filter fun form => !form.mayRepeat
  if single.Nodup then some ⟨options⟩ else none

end Given

/-- A number of 64 bits. -/
def readWord64? (word : String) : Option Nat :=
  Number.readBelow? UInt64.size word.toList

namespace Invocation

def ofCompileWords? (words : List String) : Option Invocation := do
  let given ← Given.ofWords? [.file, .output, .format] words
  let file ← given.value? .file
  let format ← given.valueOr? .format .ini Format.ofWord?
  return ⟨.compile format, file, (given.value? .output).getD standardStream⟩

def ofDecompileWords? (words : List String) : Option Invocation := do
  let given ← Given.ofWords? [.file, .output, .indent] words
  let file ← given.value? .file
  let indent ← given.valueOr? .indent Options.standard.indent readWord64?
  return ⟨.decompile indent, file, (given.value? .output).getD standardStream⟩

def ofRunWords? (words : List String) : Option Invocation := do
  let given ← Given.ofWords? [.file, .seed, .offerGroup, .condition, .trace] words
  let file ← given.value? .file
  let seed ← given.valueOr? .seed Options.standard.seed fun word =>
    (readWord64? word).map UInt64.ofNat
  let params : Params := ⟨given.value? .offerGroup, given.values .condition⟩
  return ⟨.run seed (given.value? .trace).isSome params, file, standardStream⟩

/-- The command that the words of a command line ask for; none if they make no sense. -/
def ofWords? : List String → Option Invocation
  | "compile" :: words => ofCompileWords? words
  | "decompile" :: words => ofDecompileWords? words
  | "run" :: words => ofRunWords? words
  | _ => none

end Invocation

/-- What a command leaves behind: its exit code and what it prints. -/
structure Exit where
  code : UInt32
  output : String
  errors : String
deriving DecidableEq

namespace Exit

/-- The exit after a command line that makes no sense. -/
def usage : Exit := ⟨2, "", ""⟩

def lineText (lines : List String) : String :=
  String.join (lines.map (· ++ "\n"))

/-- A failure is told after everything else. -/
def ofAttempt (attempt : Attempt String) : Exit :=
  match attempt.result with
  | .ok output => ⟨0, output, lineText attempt.log⟩
  | .error failure => ⟨1, "", lineText (attempt.log ++ ["Error: " ++ failure.message])⟩

end Exit

/-- What an invocation leaves behind if its file holds the given text. -/
def Invocation.exit (invocation : Invocation) (text : String) : Exit :=
  .ofAttempt (invocation.command.execute invocation.file text)

end MissionGraph.CommandLine
