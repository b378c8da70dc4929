import ArgGrammar.Ansi
import ArgGrammar.Context
import ArgGrammar.ParseError
import ArgGrammar.Settings
import ArgGrammar.Text.Blank

/-!
# Showing results

- `Formatter`: how results and errors are shown.
- `Formatter.context`, `Formatter.tokens`, `Formatter.candidates`, `Formatter.error`,
  `Formatter.info`: the texts.
-/

namespace ArgGrammar

/-- How results and errors are shown. -/
structure Formatter where
  /-- The way to write results. -/
  format : OutputFormat
  /-- Whether errors show the line with a caret. -/
  caret : Bool
  /-- Whether colours are used. -/
  color : Bool
  deriving DecidableEq, Repr

namespace Formatter

/-- The formatter of display settings. -/
def ofSettings (s : DisplaySettings) : Formatter := ⟨s.format, s.caret, s.color⟩

/-- A formatter that shows carets. -/
def withCaret (format : OutputFormat) (color : Bool) : Formatter := ⟨format, true, color⟩

/-- A value as JSON text. -/
def json (f : Formatter) (v : Json) : String :=
  match f.format with
  | .json => v.compact
  | .jsonPretty => v.pretty

/-- A context as a JSON object of lists. -/
def context (f : Formatter) (c : Context) : String := f.json c.toJson

/-- Tokens as a JSON list. -/
def tokens (f : Formatter) (ts : List Token) : String := f.json (.arr (ts.map Token.toJson))

/-- Candidates, one a line. -/
def candidates (cs : List String) : String := Text.joinWith "\n" cs

/-- A line of an error behind the first one; a caret alone stands out. -/
def errorLine (l : String) : String := if Text.trimStart l = "^" then Style.yellow.paint l else l

/-- The lines of an error in colour. -/
def paintError : List String → String
  | [] => Style.redBold.paint ""
  | l :: ls => Text.joinWith "\n" (Style.redBold.paint l :: ls.map errorLine)

/-- An error, with the line and a caret if carets are shown. -/
def error (f : Formatter) (e : ParseError) : String :=
  let text := if f.caret then e.annotated else e.message
  if f.color then paintError (Text.lines text) else text

/-- A remark. -/
def info (f : Formatter) (text : String) : String :=
  if f.color then Style.darkGray.paint text else text

end Formatter

end ArgGrammar
