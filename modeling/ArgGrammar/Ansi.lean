/-!
# Colours on a terminal

- `Style`: the styles that are used.
- `Style.paint`: a text between the codes that switch a style on and off.
-/

namespace ArgGrammar

/-- A style of text on a terminal. -/
inductive Style where
  | plain
  | bold
  | redBold
  | green
  | yellow
  | cyan
  | darkGray
  deriving DecidableEq, Repr

namespace Style

/-- The code that switches a style on. -/
def code? : Style → Option String
  | plain => none
  | bold => some "1"
  | redBold => some "1;31"
  | green => some "32"
  | yellow => some "33"
  | cyan => some "36"
  | darkGray => some "90"

/-- The escape character. -/
def esc : String := "\x1b["

/-- A text in a style; the plain one adds nothing. -/
def paint (s : Style) (text : String) : String :=
  match s.code? with
  | none => text
  | some code => esc ++ code ++ "m" ++ text ++ esc ++ "0m"

end Style

end ArgGrammar
