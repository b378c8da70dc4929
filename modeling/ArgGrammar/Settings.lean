import ArgGrammar.Element.UnknownFlag
import ArgGrammar.Failure
import ArgGrammar.Toml.Reader
import ArgGrammar.Tokenizer

/-!
# Settings

- `Settings`: how lines are split, how results are shown, where the history is kept and what is
  logged.
- `Settings.standard`: the settings in force without a file.
- `Settings.ofToml?`, `Settings.toToml`: settings as a TOML document; what is missing there is as in
  the standard settings.
- `Settings.check`: whether settings make sense.
- `Settings.ofFile`, `Settings.load`, `Settings.save`: settings in files.
-/

namespace ArgGrammar

/-- The ways to write results. -/
inductive OutputFormat where
  /-- On one line. -/
  | json
  /-- With one part a line. -/
  | jsonPretty
  deriving DecidableEq, Repr

/-- The name of a format. -/
def OutputFormat.name : OutputFormat → String
  | .json => "json"
  | .jsonPretty => "json-pretty"

/-- The format with a name. -/
def OutputFormat.ofName? (s : String) : Option OutputFormat :=
  [OutputFormat.json, .jsonPretty].find? (·.name = s)

/-- How much is logged. -/
inductive LogLevel where
  | error
  | warn
  | info
  | debug
  | trace
  deriving DecidableEq, Repr

/-- The name of a log level. -/
def LogLevel.name : LogLevel → String
  | .error => "error"
  | .warn => "warn"
  | .info => "info"
  | .debug => "debug"
  | .trace => "trace"

/-- The log level with a name. -/
def LogLevel.ofName? (s : String) : Option LogLevel :=
  [LogLevel.error, .warn, .info, .debug, .trace].find? (·.name = s)

/-- How lines are split and which flags are accepted. -/
structure ParserSettings where
  /-- The way to split lines. -/
  tokenizer : Tokenizer := .lenientQuoted
  /-- What happens to short flags without a definition. -/
  unknownShort : UnknownFlag := .reject
  /-- What happens to long flags without a definition. -/
  unknownLong : UnknownFlag := .reject
  deriving DecidableEq, Repr

/-- How results are shown. -/
structure DisplaySettings where
  /-- The way to write results. -/
  format : OutputFormat := .jsonPretty
  /-- Whether colours are used. -/
  color : Bool := true
  /-- Whether errors show the line with a caret. -/
  caret : Bool := true
  deriving DecidableEq, Repr

/-- Where the history is kept. -/
structure HistorySettings where
  /-- The number of lines that are kept. -/
  maxSize : Nat := 1000
  /-- The file in which they are kept. -/
  filePath : String
  /-- Whether they are kept in a file. -/
  persist : Bool := true
  deriving DecidableEq, Repr

/-- What is logged. -/
structure LoggingSettings where
  /-- How much is logged. -/
  level : LogLevel := .warn
  /-- Whether log lines start with the time. -/
  timestamps : Bool := false
  deriving DecidableEq, Repr

/-- All settings. -/
structure Settings where
  /-- How lines are split and which flags are accepted. -/
  parser : ParserSettings := {}
  /-- How results are shown. -/
  display : DisplaySettings := {}
  /-- Where the history is kept. -/
  history : HistorySettings
  /-- What is logged. -/
  logging : LoggingSettings := {}
  deriving DecidableEq, Repr

namespace Settings

/-- The path of a file in the program's directory under a home directory. -/
def homeFile (home file : String) : String := home ++ "/.cmdargs/" ++ file

/-- The settings file that is read when none is named. -/
def defaultPath (home : String) : String := homeFile home "config.toml"

/-- The settings in force without a file. -/
def standard (home : String) : Settings := { history := { filePath := homeFile home "history" } }

/-! ## As a TOML document -/

/-- The value of a field, or the standard one if it is missing. -/
def field {α : Type} (convert : Toml → Option α) (es : Toml.Entries) (key : String) (standard : α) :
    Option α :=
  match es.get? key with
  | none => some standard
  | some v => convert v

/-- The entries of a section whose fields are known. A section that is missing has none, one that is
written as a list gives its fields in order, and a date has none of them. In a table every numeral
has to denote a number; in a list those behind the last field are left alone. -/
def section? (es : Toml.Entries) (key : String) (fields : List String) : Option Toml.Entries :=
  match es.get? key with
  | none => some []
  | some (.table _ inner) => if Toml.legibleEntries inner then some inner else none
  | some (.arr items) => some (fields.zip items)
  | some (.tables items) => some (fields.zip (items.map (.table .header)))
  | some (.moment _) => some []
  | some _ => none

/-- A text. -/
def textOf : Toml → Option String
  | .str s => some s
  | _ => none

/-- A truth value. -/
def boolOf : Toml → Option Bool
  | .bool b => some b
  | _ => none

/-- A natural number of 64 bits. -/
def natOf : Toml → Option Nat
  | .int z => if 0 ≤ z ∧ z < (Nat.pow 2 64 : Nat) then some z.toNat else none
  | _ => none

/-- Whether a value is a list or a table with nothing in it. -/
def isHollow : Toml → Bool
  | .arr [] => true
  | .table _ [] => true
  | _ => false

/-- Something known by its name: a text, or a table with the name as its one key and nothing under
it. -/
def named {α : Type} (ofName? : String → Option α) : Toml → Option α
  | .str s => ofName? s
  | .table _ [(name, v)] => if isHollow v then ofName? name else none
  | _ => none

/-- The fields of the parser settings. -/
def parserFields : List String := ["tokenizer", "unknown_short_flags", "unknown_long_flags"]

/-- The parser settings of a section. -/
def parserOf? (es : Toml.Entries) (std : ParserSettings) : Option ParserSettings := do
  let tokenizer ← field (named Tokenizer.ofName?) es "tokenizer" std.tokenizer
  let unknownShort ← field (named UnknownFlag.ofName?) es "unknown_short_flags" std.unknownShort
  let unknownLong ← field (named UnknownFlag.ofName?) es "unknown_long_flags" std.unknownLong
  return { tokenizer, unknownShort, unknownLong }

/-- The fields of the display settings. -/
def displayFields : List String := ["format", "color_output", "show_caret"]

/-- The display settings of a section. -/
def displayOf? (es : Toml.Entries) (std : DisplaySettings) : Option DisplaySettings := do
  let format ← field (named OutputFormat.ofName?) es "format" std.format
  let color ← field boolOf es "color_output" std.color
  let caret ← field boolOf es "show_caret" std.caret
  return { format, color, caret }

/-- The fields of the history settings. -/
def historyFields : List String := ["max_size", "file_path", "persist"]

/-- The history settings of a section. -/
def historyOf? (es : Toml.Entries) (std : HistorySettings) : Option HistorySettings := do
  let maxSize ← field natOf es "max_size" std.maxSize
  let filePath ← field textOf es "file_path" std.filePath
  let persist ← field boolOf es "persist" std.persist
  return { maxSize, filePath, persist }

/-- The fields of the logging settings. -/
def loggingFields : List String := ["level", "timestamps"]

/-- The logging settings of a section. -/
def loggingOf? (es : Toml.Entries) (std : LoggingSettings) : Option LoggingSettings := do
  let level ← field (named LogLevel.ofName?) es "level" std.level
  let timestamps ← field boolOf es "timestamps" std.timestamps
  return { level, timestamps }

/-- The sections of a document. -/
def sections : List String := ["parser", "display", "history", "logging"]

/-- The entries of a document that are not settings. -/
def foreign (es : Toml.Entries) : Toml.Entries := es.filter fun p => !sections.contains p.1

/-- The settings of a document; what is missing is as in the standard settings, and what is unknown
is ignored if it can be read. -/
def ofEntries? (es : Toml.Entries) (std : Settings) : Option Settings := do
  guard (Toml.legibleEntries (foreign es))
  let parser ← (section? es "parser" parserFields).bind (parserOf? · std.parser)
  let display ← (section? es "display" displayFields).bind (displayOf? · std.display)
  let history ← (section? es "history" historyFields).bind (historyOf? · std.history)
  let logging ← (section? es "logging" loggingFields).bind (loggingOf? · std.logging)
  return { parser, display, history, logging }

/-- Reads the settings of a document. -/
def ofToml? (text : String) (std : Settings) : Option Settings :=
  (Toml.read? text).bind (ofEntries? · std)

/-- A line that sets a key. -/
def line (key value : String) : String := key ++ " = " ++ value ++ "\n"

/-- A text as a TOML value. -/
def quoted (s : String) : String := String.ofList (Toml.writeString s.toList)

/-- A truth value as a TOML value. -/
def truth (b : Bool) : String := if b then "true" else "false"

/-- The settings as a document: one section after another, with an empty line between them. -/
def toToml (s : Settings) : String :=
  "[parser]\n"
    ++ line "tokenizer" (quoted s.parser.tokenizer.name)
    ++ line "unknown_short_flags" (quoted s.parser.unknownShort.name)
    ++ line "unknown_long_flags" (quoted s.parser.unknownLong.name)
    ++ "\n[display]\n"
    ++ line "format" (quoted s.display.format.name)
    ++ line "color_output" (truth s.display.color)
    ++ line "show_caret" (truth s.display.caret)
    ++ "\n[history]\n"
    ++ line "max_size" (toString s.history.maxSize)
    ++ line "file_path" (quoted s.history.filePath)
    ++ line "persist" (truth s.history.persist)
    ++ "\n[logging]\n"
    ++ line "level" (quoted s.logging.level.name)
    ++ line "timestamps" (truth s.logging.timestamps)

/-! ## In files -/

/-- Checks that the history has room and, if it is kept, a file. -/
def check (s : Settings) : Except ConfigError Unit :=
  if s.history.maxSize = 0 then .error (.invalidValue "history.max_size" "0")
  else if s.history.persist && s.history.filePath = "" then
    .error (.invalidValue "history.file_path" "")
  else .ok ()

/-- Reads settings from a file. -/
def ofFile (home : String) (files : FileTree) (path : String) : Except Failure Settings :=
  if files.has path then
    match files.read path with
    | .error fault => .error (.system (.file fault))
    | .ok text =>
      match ofToml? text (standard home) with
      | some s => .ok s
      | none => .error (.config (.invalidFormat "the document does not describe settings"))
  else .error (.config (.fileNotFound path))

/-- Reads and checks the settings in a named file, or in the default one if that exists. -/
def load (home : String) (files : FileTree) (path : Option String) : Except Failure Settings :=
  let found :=
    match path with
    | some path => ofFile home files path
    | none =>
      if files.has (defaultPath home) then ofFile home files (defaultPath home)
      else .ok (standard home)
  match found with
  | .error e => .error e
  | .ok s =>
    match s.check with
    | .ok _ => .ok s
    | .error e => .error (.config e)

/-- Writes settings to a file, making its directory, and gives the files as they are then. -/
def save (s : Settings) (files : FileTree) (path : String) : Except Failure Unit × FileTree :=
  match files.writeDeep path s.toToml with
  | (.ok _, files) => (.ok (), files)
  | (.error fault, files) => (.error (.system (.file fault)), files)

end Settings

end ArgGrammar
