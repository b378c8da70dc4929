import ArgGrammar.Help
import ArgGrammar.Invocation
import ArgGrammar.Shell

/-!
# Running the program

The program works on a world: a home directory, the files, and what is written to the two output
streams.

- `World`: the state that the program can see and change.
- `Program.loadSettings`: the settings in force: those of a file, then those of the options.
- `Program.runCommand`: carries out a command.
- `Program.banner`: the greeting of the shell.
- `Program.run`: all of it, from the words of the command line to an exit or to the shell.
- `Program.runDetached`: the same without a terminal, where the shell cannot run.
-/

namespace ArgGrammar

/-- What the program can see and change. -/
structure World where
  /-- The path of the home directory. -/
  home : String
  /-- The files. -/
  files : FileTree
  /-- What was written to standard output. -/
  stdout : String := ""
  /-- What was written to standard error. -/
  stderr : String := ""
  deriving DecidableEq, Repr

namespace World

/-- Writes a line to standard output. -/
def printLine (w : World) (text : String) : World := { w with stdout := w.stdout ++ text ++ "\n" }

/-- Writes a line to standard error. -/
def complainLine (w : World) (text : String) : World :=
  { w with stderr := w.stderr ++ text ++ "\n" }

end World

namespace Program

/-- The version of the program. -/
def version : String := "0.9.0"

/-! ## Settings -/

/-- The format with a name as a user writes it. -/
def formatNamed? (s : String) : Option OutputFormat :=
  let word := Text.lower s
  if word = "json" then some .json
  else if word = "json-pretty" ∨ word = "jsonpretty" ∨ word = "pretty" then some .jsonPretty
  else none

/-- The log level that the options ask for, if they do. -/
def levelFor (inv : Invocation) (level : LogLevel) : LogLevel :=
  if inv.veryVerbose then .trace
  else if inv.verbose then .debug
  else if inv.quiet then .error
  else level

/-- Settings with those of the options on top. -/
def applyOptions (inv : Invocation) (s : Settings) : Settings :=
  { s with
    parser := { s.parser with tokenizer := inv.tokenizer.getD s.parser.tokenizer }
    display :=
      { s.display with
        format := (inv.format.bind formatNamed?).getD s.display.format
        color := s.display.color && !inv.noColor }
    logging := { s.logging with level := levelFor inv s.logging.level } }

/-- Warns of a format that does not exist. -/
def warnFormat (inv : Invocation) (w : World) : World :=
  match inv.format with
  | none => w
  | some name =>
    if (formatNamed? name).isSome then w
    else w.complainLine ("Warning: Unknown format '" ++ name ++ "', using default")

/-- The settings in force. A file that is named has to be usable; the default one is replaced by the
standard settings, with a warning, when it is not. -/
def loadSettings (inv : Invocation) (w : World) : Except Failure Settings × World :=
  match Settings.load w.home w.files inv.configFile with
  | .ok s => (.ok (applyOptions inv s), warnFormat inv w)
  | .error e =>
    if inv.configFile.isSome then (.error e, w)
    else
      let w := w.complainLine ("Warning: " ++ e.message ++ ", using default configuration")
      (.ok (applyOptions inv (.standard w.home)), warnFormat inv w)

/-! ## Commands -/

/-- What a command shows, and whether it succeeded. -/
structure Shown where
  /-- The text. -/
  text : String
  /-- Whether the command succeeded; a failure is shown on standard error. -/
  success : Bool
  deriving DecidableEq, Repr

/-- What parsing a line shows. -/
def showParse (s : Settings) (input : String) : Shown :=
  let formatter := Formatter.ofSettings s.display
  match (Demo.parser s.parser).parse input with
  | .ok context => ⟨formatter.context context, true⟩
  | .error e => ⟨formatter.error e, false⟩

/-- What completing a line shows. -/
def showComplete (s : Settings) (input : String) : Shown :=
  ⟨Formatter.candidates ((Demo.parser s.parser).complete input), true⟩

/-- What splitting a line shows. -/
def showTokens (s : Settings) (input : String) (forCompletion : Bool) : Shown :=
  let formatter := Formatter.ofSettings s.display
  match s.parser.tokenizer.tokenize input forCompletion with
  | .ok tokens => ⟨formatter.tokens tokens, true⟩
  | .error e => ⟨formatter.error e, false⟩

/-- The settings file that is named, or the default one. -/
def configPath (inv : Invocation) (home : String) : String :=
  inv.configFile.getD (Settings.defaultPath home)

/-- The lines that checking the settings file shows, and whether it is usable. -/
def checkFile (path : String) (w : World) : List String × Bool :=
  let first := "Validating configuration file: " ++ path
  match Settings.load w.home w.files (some path) with
  | .ok _ => ([first, "Configuration is valid"], true)
  | .error e => ([first, "Configuration is invalid: " ++ e.message], false)

/-- Shows, checks and writes settings: first the file is checked, then it is written, and then the
settings in force are shown, which is also done when nothing is asked for. -/
def runConfig (inv : Invocation) (s : Settings) (display validate write : Bool) (w : World) :
    Except Failure Shown × World :=
  let path := configPath inv w.home
  let (checked, success) := if validate then checkFile path w else ([], true)
  let (written, files) := if write then s.save w.files path else (.ok (), w.files)
  match written with
  | .error e => (.error e, { w with files })
  | .ok _ =>
    let lines :=
      checked
        ++ (if write then ["Configuration written to " ++ path] else [])
        ++ (if display || !(validate || write) then [s.toToml] else [])
    (.ok ⟨Text.joinWith "\n" lines, success⟩, { w with files })

/-- What a command shows; the shell shows nothing by itself. -/
def perform (inv : Invocation) (s : Settings) (w : World) : Except Failure (Option Shown) × World :=
  match inv.command with
  | some (.parse input) => (.ok (some (showParse s input)), w)
  | some (.complete input) => (.ok (some (showComplete s input)), w)
  | some (.tokens input forCompletion) => (.ok (some (showTokens s input forCompletion)), w)
  | some (.config display validate write) =>
    let (shown, w) := runConfig inv s display validate write w
    (shown.map some, w)
  | some .shell => (.ok none, w)
  | none => (.ok none, w)

/-- Writes what a command shows. -/
def emit (shown : Shown) (w : World) : World :=
  if shown.success then (if shown.text = "" then w else w.printLine shown.text)
  else w.complainLine shown.text

/-- Carries out a command and tells whether it succeeded; without one, the shell is to be run. -/
def runCommand (inv : Invocation) (s : Settings) (w : World) :
    Except Failure (Option Bool) × World :=
  match perform inv s w with
  | (.error e, w) => (.error e, w)
  | (.ok none, w) => (.ok none, w)
  | (.ok (some shown), w) => (.ok (some shown.success), emit shown w)

/-- The greeting of the shell. -/
def banner (inv : Invocation) (s : Settings) (w : World) : World :=
  if inv.quiet then w
  else
    (w.printLine ("cmdargs " ++ version)).printLine
      ((Formatter.ofSettings s.display).info
        "Type 'help' for the grammar, Tab to complete, Ctrl-D to exit.")

/-! ## The whole program -/

/-- How a run of the program goes on. -/
inductive Next where
  /-- It ends with an exit code. -/
  | exit (code : Nat)
  /-- The shell is run with these settings. -/
  | shell (inv : Invocation) (s : Settings)

/-- Reports words that ask for nothing that can be done. -/
def reportUsage (e : UsageError) (w : World) : Next × World :=
  match e with
  | .displayHelp command full => (.exit 0, w.printLine (HelpPage.text command full))
  | .displayVersion => (.exit 0, w.printLine ("cmdargs " ++ version))
  | _ => (.exit 2, w.complainLine (HelpPage.text none false))

/-- Runs the program up to the shell. -/
def run (words : List String) (w : World) : Next × World :=
  match Invocation.read words with
  | .error e => reportUsage e w
  | .ok inv =>
    match loadSettings inv w with
    | (.error e, w) => (.exit 1, w.complainLine ("Error: " ++ e.message))
    | (.ok s, w) =>
      match runCommand inv s w with
      | (.error e, w) => (.exit 1, w.complainLine ("Error: " ++ e.message))
      | (.ok (some true), w) => (.exit 0, w)
      | (.ok (some false), w) => (.exit 1, w)
      | (.ok none, w) => (.shell inv s, banner inv s w)

/-- What the shell needs and a run without a terminal does not have. -/
def noTerminal : Failure := .editor "I/O error: No such device or address (os error 6)"

/-- Runs the program without a terminal, up to its exit code. The shell opens its history before it
finds that it has no terminal. -/
def runDetached (words : List String) (w : World) : Nat × World :=
  match run words w with
  | (.exit code, w) => (code, w)
  | (.shell _ s, w) =>
    (1, { w with files := Shell.openHistory s.history w.files }.complainLine
      ("Error: " ++ noTerminal.message))

end Program

end ArgGrammar
