import ArgGrammar.Demo
import ArgGrammar.Formatter

/-!
# The interactive shell

- `Shell.evaluate`: what a line leads to.
- `Shell.suggest`: what may replace the token before the caret.
- `Shell.highlight`: a line in styles.
- `Shell.promptLeft`, `Shell.searchPrompt`: the prompts.
- `Shell.openHistory`: what becomes of the history file when the shell starts.
-/

namespace ArgGrammar.Shell

/-- What a line leads to. -/
inductive Evaluation where
  /-- Nothing happens. -/
  | empty
  /-- The shell ends. -/
  | exit
  /-- A text is shown. -/
  | output (text : String)
  /-- A complaint is shown. -/
  | failed (text : String)
  deriving DecidableEq, Repr

/-- Evaluates a line. A few words are handled before the grammar sees it. -/
def evaluate (parser : Parser) (formatter : Formatter) (line : String) : Evaluation :=
  let word := Text.trim line
  if word = "" then .empty
  else if word = "exit" ∨ word = "quit" then .exit
  else if word = "help" then .output Demo.usage
  else
    match parser.parse line with
    | .ok context => .output (formatter.context context)
    | .error e => .failed (formatter.error e)

/-- A text that may replace a part of the line. -/
structure Suggestion where
  /-- The text. -/
  value : String
  /-- The byte offset at which the part starts. -/
  start : Nat
  /-- The byte offset at which it ends. -/
  stop : Nat
  /-- Whether a blank follows the text. -/
  appendBlank : Bool
  deriving DecidableEq, Repr

/-- What may replace the token before the caret. -/
def suggest (parser : Parser) (line : String) (caret : Nat) : List Suggestion :=
  let (start, candidates) := parser.completeLine line caret
  let stop := max (min caret (Text.size line)) start
  candidates.map (⟨·, start, stop, true⟩)

/-- The style of the token with a number, as it stands in the line. -/
def styleOf (index : Nat) (source : String) : Style :=
  match source.toList with
  | '"' :: _ => .green
  | '\'' :: _ => .green
  | cs =>
    if cs.head? = some '-' ∧ cs ≠ ['-'] ∧ cs ≠ ['-', '-'] then .cyan
    else if index = 0 then .bold
    else .plain

/-- The part of a line between two offsets, if there is any, without a style. -/
def gap (line : String) (start stop : Nat) : List (Style × String) :=
  if start < stop then [(.plain, Text.slice start stop line)] else []

/-- The tokens in their styles with what stands between them, from an offset on; `index` is the
number of the first token. -/
def segments (line : String) : Nat → Nat → List Token → List (Style × String)
  | _, last, [] => gap line last (Text.size line)
  | index, last, t :: ts =>
    let source := Text.slice t.start t.stop line
    gap line last t.start ++ (styleOf index source, source) :: segments line (index + 1) t.stop ts

/-- A line in styles. A quote may be open while typing, whatever the policy. -/
def highlight (tokenizer : Tokenizer) (enabled : Bool) (line : String) : List (Style × String) :=
  let tokenizer := if tokenizer = .strictQuoted then .lenientQuoted else tokenizer
  match enabled, tokenizer.tokenize line false with
  | true, .ok tokens => segments line 0 0 tokens
  | _, _ => [(.plain, line)]

/-- The prompt; it names a policy that is not the usual one. -/
def promptLeft : Tokenizer → String
  | .lenientQuoted => "cmdargs> "
  | other => "cmdargs [" ++ other.name ++ "]> "

/-- The prompt at the right. -/
def promptRight : String := ""

/-- What stands between the prompt and the line. -/
def promptIndicator : String := ""

/-- The prompt of further lines. -/
def promptMultiline : String := "... "

/-- The prompt of a search in the history. -/
def searchPrompt (term : String) (failing : Bool) : String :=
  "(" ++ (if failing then "failing " else "") ++ "reverse-search: " ++ term ++ ") "

/-- The text of a history file that may keep `n` lines: the last ones, if there are more. -/
def trimHistory (n : Nat) (text : String) : String :=
  let ls := Text.lines text
  if n < ls.length then String.join ((ls.drop (ls.length - n)).map (· ++ "\n")) else text

/-- Whether the lines of a history of a size can be counted; one more than the size has to fit in 64
bits. -/
def countable (size : Nat) : Bool := size + 1 < Nat.pow 2 64

/-- Opens the history file if the history is kept: it is made if there is none, and cut to the lines
that are kept. When that fails, the history is not kept; directories that were made by then stay. -/
def openHistory (s : HistorySettings) (files : FileTree) : FileTree :=
  if s.persist then
    match files.makeParents s.filePath with
    | (.error _, files) => files
    | (.ok _, files) =>
      match countable s.maxSize, files.edit s.filePath (trimHistory s.maxSize) with
      | true, .ok files => files
      | _, _ => files
  else files

end ArgGrammar.Shell
