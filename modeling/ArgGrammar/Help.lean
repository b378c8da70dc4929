import ArgGrammar.Text.Lines

/-!
# Pages of help

A page says what a command is for and how it is called, and lists what it takes. In its full form
every option stands on lines of its own.

- `HelpPage`: a page, and `HelpPage.render`: its text.
- `HelpPage.program`: the page of the program, in short and in full.
- `HelpPage.ofCommand?`: the page of a command.
-/

namespace ArgGrammar

/-- A line of a list: what it is about, and what there is to say about it. -/
structure HelpEntry where
  /-- A name with what belongs to it. -/
  subject : String
  /-- What there is to say. -/
  text : String
  deriving DecidableEq, Repr

/-- A page of help. -/
structure HelpPage where
  /-- What the command is for. -/
  about : String
  /-- How it is called. -/
  usage : String
  /-- The commands behind it. -/
  commands : List HelpEntry := []
  /-- The words that it takes. -/
  arguments : List HelpEntry := []
  /-- The options that it takes. -/
  options : List HelpEntry := []
  deriving DecidableEq, Repr

namespace HelpEntry

/-- An entry on one line, with its text behind a column of a width. -/
def row (width : Nat) (e : HelpEntry) : String :=
  "  " ++ e.subject ++ String.ofList (List.replicate (width - e.subject.length + 2) ' ') ++ e.text

/-- An entry with its text on the next line. -/
def block (e : HelpEntry) : String := "  " ++ e.subject ++ "\n          " ++ e.text

/-- The width of the column of subjects. -/
def columnWidth (es : List HelpEntry) : Nat := es.foldl (fun w e => max w e.subject.length) 0

/-- Entries, one a line. -/
def rows (es : List HelpEntry) : String := Text.joinWith "\n" (es.map (row (columnWidth es)))

/-- Entries with an empty line between them. -/
def blocks (es : List HelpEntry) : String := Text.joinWith "\n\n" (es.map block)

end HelpEntry

namespace HelpPage

/-- A list under its title, if there is anything in it. -/
def part (title : String) (list : List HelpEntry → String) (es : List HelpEntry) : List String :=
  if es.isEmpty then [] else [title ++ ":\n" ++ list es]

/-- The text of a page, in its full form or not. -/
def render (p : HelpPage) (full : Bool) : String :=
  let options := if full then HelpEntry.blocks else HelpEntry.rows
  Text.joinWith "\n\n"
    ([p.about, "Usage: " ++ p.usage]
      ++ part "Commands" HelpEntry.rows p.commands
      ++ part "Arguments" HelpEntry.rows p.arguments
      ++ part "Options" options p.options)

/-- The option that asks for help. -/
def helpOption : HelpEntry := ⟨"-h, --help", "Print help"⟩

/-- The page on parsing. -/
def parse : HelpPage where
  about := "Parse INPUT and print the recorded values as JSON"
  usage := "cmdargs parse <INPUT>"
  arguments := [⟨"<INPUT>", "Command line to parse, quoted as one shell argument"⟩]
  options := [helpOption]

/-- The page on completion. -/
def complete : HelpPage where
  about := "Print completion candidates for the final token of INPUT"
  usage := "cmdargs complete <INPUT>"
  arguments :=
    [⟨"<INPUT>", "Partial command line; a trailing space completes the next argument"⟩]
  options := [helpOption]

/-- The page on tokens. -/
def tokens : HelpPage where
  about := "Print the tokens of INPUT with their byte spans"
  usage := "cmdargs tokens [OPTIONS] <INPUT>"
  arguments := [⟨"<INPUT>", ""⟩]
  options :=
    [⟨"    --for-completion",
      "Tokenize as for completion (tolerate open quotes, add trailing token)"⟩,
      helpOption]

/-- The page on the shell. -/
def shell : HelpPage where
  about := "Start the interactive REPL (default)"
  usage := "cmdargs repl"
  options := [helpOption]

/-- The page on settings. -/
def config : HelpPage where
  about := "Show, validate or write configuration"
  usage := "cmdargs config [OPTIONS]"
  options :=
    [⟨"    --show", "Show effective configuration"⟩,
      ⟨"    --validate", "Validate configuration file"⟩,
      ⟨"    --write", "Write the effective configuration to the configuration file"⟩,
      helpOption]

/-- The page on help. -/
def help : HelpPage where
  about := "Print this message or the help of the given subcommand(s)"
  usage := "cmdargs help [COMMAND]..."
  arguments := [⟨"[COMMAND]...", "Print help for the subcommand(s)"⟩]

/-- The pages of the commands by name. -/
def ofCommands : List (String × HelpPage) :=
  [("parse", parse), ("complete", complete), ("tokens", tokens), ("repl", shell),
    ("config", config), ("help", help)]

/-- The page of a command. -/
def ofCommand? (name : String) : Option HelpPage :=
  (ofCommands.find? (·.1 = name)).map Prod.snd

/-- The page of the program, for its full form or not. -/
def program (full : Bool) : HelpPage where
  about :=
    if full then
      "Tokenize, parse and complete command lines against a built-in demo grammar.\n" ++
      "Runs an interactive REPL with tab completion when no subcommand is given."
    else "Parse and complete command arguments against a combinator grammar"
  usage := "cmdargs [OPTIONS] [COMMAND]"
  commands := ofCommands.map fun (name, page) => ⟨name, page.about⟩
  options :=
    [⟨"-c, --config <FILE>", "Configuration file path"⟩,
      ⟨"    --tokenizer <POLICY>",
        "Tokenizer policy (lenient-quoted, strict-quoted, raw, space-split)"⟩,
      ⟨"    --format <FORMAT>", "Output format (json, json-pretty)"⟩,
      ⟨"    --no-color", "Disable colored output"⟩,
      ⟨"-q, --quiet", "Quiet mode (only errors are logged)"⟩,
      ⟨"-v, --verbose", "Verbose mode (debug logging)"⟩,
      ⟨"    --vv", "Very verbose mode (trace logging)"⟩,
      ⟨"-h, --help",
        if full then "Print help (see a summary with '-h')"
        else "Print help (see more with '--help')"⟩,
      ⟨"-V, --version", "Print version"⟩]

/-- The text of the page of a command, or of the program. Only the page of the program has a full
form. -/
def text (command : Option String) (full : Bool) : String :=
  match command.bind ofCommand? with
  | some page => page.render false
  | none => (program full).render full

end HelpPage

end ArgGrammar
