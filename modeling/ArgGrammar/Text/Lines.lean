/-!
# Lines

- `lines`: the lines of a text. A line ends with a line feed or with a carriage return and a line
  feed; the last one need not end, and an empty text has none.
- `joinWith`: texts with a separator between neighbours.
-/

namespace ArgGrammar.Text

/-- The lines of `cs`, without what ends them. -/
def lineChars : List Char → List (List Char)
  | [] => []
  | '\n' :: cs => [] :: lineChars cs
  | '\r' :: '\n' :: cs => [] :: lineChars cs
  | c :: cs =>
    match lineChars cs with
    | [] => [[c]]
    | l :: ls => (c :: l) :: ls

/-- The lines of `s`, without what ends them. -/
def lines (s : String) : List String := (lineChars s.toList).map String.ofList

/-- The texts `parts` with `sep` between neighbours. -/
def joinWith (sep : String) : List String → String
  | [] => ""
  | [s] => s
  | s :: rest => s ++ sep ++ joinWith sep rest

end ArgGrammar.Text
