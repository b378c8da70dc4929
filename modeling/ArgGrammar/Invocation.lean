import ArgGrammar.Text.Bytes
import ArgGrammar.Tokenizer

/-!
# The program's own command line

Options stand before the command, and each command has options of its own. An option may be given
once. The value of an option is checked when the next option is met or when the words end; an option
that does not exist is noticed at once.

- `Command`, `Invocation`: what the words ask for.
- `UsageError`: why words ask for nothing.
- `Invocation.read`: what words ask for.
-/

namespace ArgGrammar

/-- What the program is to do. -/
inductive Command where
  /-- Parse a line and show what it records. -/
  | parse (input : String)
  /-- Show what the last token of a line may become. -/
  | complete (input : String)
  /-- Show the tokens of a line. -/
  | tokens (input : String) (forCompletion : Bool)
  /-- Run the shell. -/
  | shell
  /-- Show, check or write the settings. -/
  | config (display validate write : Bool)
  deriving DecidableEq, Repr

/-- What a command line asks for. -/
structure Invocation where
  /-- The settings file. -/
  configFile : Option String := none
  /-- The way to split lines. -/
  tokenizer : Option Tokenizer := none
  /-- The way to write results, as it was typed. -/
  format : Option String := none
  /-- Whether colours are off. -/
  noColor : Bool := false
  /-- Whether only errors are logged. -/
  quiet : Bool := false
  /-- Whether much is logged. -/
  verbose : Bool := false
  /-- Whether everything is logged. -/
  veryVerbose : Bool := false
  /-- What to do, if a command is given. -/
  command : Option Command := none
  deriving DecidableEq, Repr

/-- Why words ask for nothing that can be done. -/
inductive UsageError where
  /-- Help is asked for, on a command or on the program, in full or not. -/
  | displayHelp (command : Option String) (full : Bool)
  /-- The version is asked for. -/
  | displayVersion
  /-- A word is no command. -/
  | invalidSubcommand
  /-- An option does not exist, or a word is one too many. -/
  | unknownArgument
  /-- A word is missing. -/
  | missingRequiredArgument
  /-- An option has no value, or an empty one. -/
  | invalidValue
  /-- The value of an option is not one of those it may have. -/
  | valueValidation
  /-- An option is given twice. -/
  | argumentConflict
  /-- An option without a value has one. -/
  | tooManyValues
  deriving DecidableEq, Repr

/-- A fault met behind a command; help that is asked for there is on that command. -/
def UsageError.behind (command : String) : UsageError → UsageError
  | .displayHelp _ full => .displayHelp (some command) full
  | e => e

namespace Invocation

/-! ## Options -/

/-- The options of the program and of its commands. -/
inductive Opt where
  | config
  | tokenizer
  | format
  | noColor
  | quiet
  | verbose
  | veryVerbose
  | forCompletion
  | display
  | validate
  | write
  | help
  | version
  deriving DecidableEq, Repr

namespace Opt

/-- The name of an option. -/
def long : Opt → String
  | config => "config"
  | tokenizer => "tokenizer"
  | format => "format"
  | noColor => "no-color"
  | quiet => "quiet"
  | verbose => "verbose"
  | veryVerbose => "vv"
  | forCompletion => "for-completion"
  | display => "show"
  | validate => "validate"
  | write => "write"
  | help => "help"
  | version => "version"

/-- The letter of an option. -/
def short? : Opt → Option Char
  | config => some 'c'
  | quiet => some 'q'
  | verbose => some 'v'
  | help => some 'h'
  | version => some 'V'
  | _ => none

/-- Whether an option has a value. -/
def takesValue : Opt → Bool
  | config | tokenizer | format => true
  | _ => false

end Opt

/-- What may stand in a part of the command line: before the command, or behind it. -/
structure Level where
  /-- The options. -/
  options : List Opt
  /-- Whether a line to work on is expected. -/
  takesInput : Bool
  /-- The names of the commands. -/
  commands : List String

/-- What may stand before the command. -/
def topLevel : Level where
  options :=
    [.config, .tokenizer, .format, .noColor, .quiet, .verbose, .veryVerbose, .help, .version]
  takesInput := false
  commands := ["parse", "complete", "tokens", "repl", "config", "help"]

/-- What may stand behind a command. -/
def levelOf (command : String) : Level :=
  if command = "parse" ∨ command = "complete" then ⟨[.help], true, []⟩
  else if command = "tokens" then ⟨[.forCompletion, .help], true, []⟩
  else if command = "config" then ⟨[.display, .validate, .write, .help], false, []⟩
  else ⟨[.help], false, []⟩

namespace Level

/-- The option with a name. -/
def long? (l : Level) (name : String) : Option Opt := l.options.find? (·.long = name)

/-- The option with a letter. -/
def shortOpt? (l : Level) (c : Char) : Option Opt := l.options.find? (·.short? = some c)

end Level

/-! ## Reading words -/

/-- What was read at a level. -/
structure Reading where
  /-- The options met so far, with their values. -/
  found : List (Opt × String) := []
  /-- The option whose value is not checked yet, with that value if it was met. -/
  pending : Option (Opt × Option String) := none
  /-- The line to work on. -/
  input : Option String := none

namespace Reading

/-- Checks the value of an option. -/
def checkValue (o : Opt) (value : String) : Except UsageError Unit :=
  match o with
  | .tokenizer =>
    match Tokenizer.parse value with
    | .ok _ => .ok ()
    | .error _ => .error .valueValidation
  | .config => if value = "" then .error .invalidValue else .ok ()
  | _ => .ok ()

/-- Takes an option with its value. -/
def take (r : Reading) (o : Opt) (value : String) : Except UsageError Reading :=
  if r.found.any (·.1 = o) then .error .argumentConflict
  else
    match checkValue o value with
    | .error e => .error e
    | .ok _ => .ok { r with found := r.found ++ [(o, value)] }

/-- Takes the option that is pending. -/
def settle (r : Reading) : Except UsageError Reading :=
  match r.pending with
  | none => .ok r
  | some (_, none) => .error .invalidValue
  | some (o, some value) => { r with pending := none }.take o value

/-- Takes an option, after the one that is pending; `full` tells whether it was met by its name. -/
def accept (r : Reading) (full : Bool) (o : Opt) (value : String) : Except UsageError Reading :=
  match r.settle with
  | .error e => .error e
  | .ok r =>
    match o with
    | .help => .error (.displayHelp none full)
    | .version => .error .displayVersion
    | _ => r.take o value

/-- Leaves an option pending, after taking the one that is. -/
def await (r : Reading) (o : Opt) : Except UsageError Reading :=
  match r.settle with
  | .error e => .error e
  | .ok r => .ok { r with pending := some (o, none) }

/-- Whether the next word is the value of an option. -/
def awaits (r : Reading) : Bool :=
  match r.pending with
  | some (_, none) => true
  | _ => false

/-- Gives a word to the option that waits for it. -/
def give (r : Reading) (value : String) : Reading :=
  match r.pending with
  | some (o, none) => { r with pending := some (o, some value) }
  | _ => r

/-- Whether an option was met. -/
def has (r : Reading) (o : Opt) : Bool := r.found.any (·.1 = o)

/-- The value of an option. -/
def value? (r : Reading) (o : Opt) : Option String := (r.found.find? (·.1 = o)).map Prod.snd

end Reading

/-- What a word that looks like an option turns out to be. -/
inductive Looked where
  /-- It is one or more options. -/
  | options (r : Reading)
  /-- It is a plain word. -/
  | plain

/-- Reads a word after two hyphens: a name, and a value behind an equals sign. -/
def readLong (l : Level) (r : Reading) (cs : List Char) : Except UsageError Looked :=
  let name := String.ofList (cs.takeWhile (· != '='))
  let attached : Option String :=
    match cs.dropWhile (· != '=') with
    | [] => none
    | _ :: value => some (String.ofList value)
  match l.long? name, attached with
  | none, _ =>
    if l.takesInput && r.input.isNone then .ok .plain else .error .unknownArgument
  | some o, some value =>
    if o.takesValue then (r.accept true o value).map .options else .error .tooManyValues
  | some o, none =>
    if o.takesValue then (r.await o).map .options else (r.accept true o "").map .options

/-- Reads the letters after a hyphen. What follows the letter of an option with a value is that
value, behind an equals sign or not. -/
def readLetters (l : Level) : Reading → List Char → Except UsageError Reading
  | r, [] => .ok r
  | r, c :: cs =>
    match l.shortOpt? c with
    | none => .error .unknownArgument
    | some o =>
      if o.takesValue then
        match cs with
        | [] => r.await o
        | '=' :: value => r.accept false o (String.ofList value)
        | value => r.accept false o (String.ofList value)
      else
        match r.accept false o "" with
        | .error e => .error e
        | .ok r => readLetters l r cs

/-- Reads a word after one hyphen. Where a line is expected, a word with a letter that is no option
is that line. -/
def readShort (l : Level) (r : Reading) (cs : List Char) : Except UsageError Looked :=
  if l.takesInput && r.input.isNone && cs.any (fun c => (l.shortOpt? c).isNone) then .ok .plain
  else (readLetters l r cs).map .options

/-- Tells what a word is. -/
def look (l : Level) (r : Reading) (word : String) : Except UsageError Looked :=
  match word.toList with
  | '-' :: '-' :: cs => readLong l r cs
  | '-' :: c :: cs => readShort l r (c :: cs)
  | _ => .ok .plain

/-- Takes a word that is no option and no value of one. `behind` tells whether options have ended.
-/
def takeWord (l : Level) (behind : Bool) (r : Reading) (word : String) :
    Except UsageError Reading :=
  if l.takesInput && r.input.isNone then
    match r.settle with
    | .error e => .error e
    | .ok r => .ok { r with input := some word }
  else if l.commands.isEmpty then .error .unknownArgument
  else if behind && word ∈ l.commands then .error .unknownArgument
  else .error .invalidSubcommand

/-- Reads the words at a level up to a command, which is given back with the words behind it.
`behind` tells whether two hyphens have ended the options. -/
def readWords (l : Level) (behind : Bool) (r : Reading) :
    List String → Except UsageError (Reading × Option (String × List String))
  | [] => .ok (r, none)
  | word :: words =>
    if behind then
      match takeWord l behind r word with
      | .error e => .error e
      | .ok r => readWords l behind r words
    else if !r.awaits && word ∈ l.commands then .ok (r, some (word, words))
    else if word = "--" then readWords l true r words
    else
      match look l r word with
      | .error e => .error e
      | .ok (.options r) => readWords l false r words
      | .ok .plain =>
        if r.awaits then readWords l false (r.give word) words
        else
          match takeWord l behind r word with
          | .error e => .error e
          | .ok r => readWords l behind r words

/-! ## The whole command line -/

/-- Help on commands: the words behind `help` name one command at most, since no command has
commands of its own. -/
def helpOn : List String → UsageError
  | [] => .displayHelp none true
  | [word] =>
    if word ∈ topLevel.commands then .displayHelp (some word) true else .invalidSubcommand
  | _ => .invalidSubcommand

/-- The command that a name and what was read behind it ask for. -/
def commandOf (name : String) (r : Reading) : Except UsageError Command :=
  if (levelOf name).takesInput then
    match r.input with
    | none => .error .missingRequiredArgument
    | some input =>
      if name = "parse" then .ok (.parse input)
      else if name = "complete" then .ok (.complete input)
      else .ok (.tokens input (r.has .forCompletion))
  else if name = "config" then .ok (.config (r.has .display) (r.has .validate) (r.has .write))
  else .ok .shell

/-- Reads the words behind a command. -/
def readCommand (name : String) (words : List String) : Except UsageError Command :=
  if name = "help" then .error (helpOn words)
  else
    match readWords (levelOf name) false {} words with
    | .error e => .error (e.behind name)
    | .ok (r, _) =>
      match r.settle with
      | .error e => .error e
      | .ok r => commandOf name r

/-- The invocation that the options before the command ask for. -/
def ofReading (r : Reading) (command : Option Command) : Invocation where
  configFile := r.value? .config
  tokenizer := (r.value? .tokenizer).bind fun s => (Tokenizer.parse s).toOption
  format := r.value? .format
  noColor := r.has .noColor
  quiet := r.has .quiet
  verbose := r.has .verbose
  veryVerbose := r.has .veryVerbose
  command := command

/-- What the words of a command line ask for. Faults behind the command are found before a pending
option in front of it is checked. -/
def read (words : List String) : Except UsageError Invocation :=
  match readWords topLevel false {} words with
  | .error e => .error e
  | .ok (r, named) =>
    let command : Except UsageError (Option Command) :=
      match named with
      | none => .ok none
      | some (name, words) => (readCommand name words).map some
    match command with
    | .error e => .error e
    | .ok command => r.settle.map (ofReading · command)

end Invocation

end ArgGrammar
