import ArgGrammar.Number.Shortest
import ArgGrammar.Text.Lines

/-!
# JSON text

- `Json`: the values that are written, the members of an object in order.
- `Json.number`: how floating-point numbers are written in JSON.
- `Json.compact`: the text on one line, without blanks.
- `Json.pretty`: the text with one member or item a line, two blanks deeper at each level.
-/

namespace ArgGrammar

/-- A JSON value; the members of an object keep their order. -/
inductive Json where
  | bool (b : Bool)
  | int (z : Int)
  | float (x : Binary64)
  | str (s : String)
  | arr (items : List Json)
  | obj (members : List (String × Json))

namespace Json

/-- Numbers are shortest, with ties to even. They have no exponent when the leading digit stands
between 10⁻⁵ and 10¹⁵, and a whole number then ends with `.0`; what is not finite is `null`. -/
def number : Layout where
  tie := .toEven
  positional e := -5 ≤ e && e < 16
  wholeSuffix := ".0"
  infinities := ("null", "null")
  nan := "null"

/-- The four lower-case hexadecimal digits of a small code point. -/
def hex4 (n : Nat) : List Char :=
  let ds := Nat.toDigits 16 n
  List.replicate (4 - ds.length) '0' ++ ds

/-- One character inside a JSON string. -/
def escapedChar (c : Char) : List Char :=
  if c = '"' then ['\\', '"']
  else if c = '\\' then ['\\', '\\']
  else if c = '\n' then ['\\', 'n']
  else if c = '\r' then ['\\', 'r']
  else if c = '\t' then ['\\', 't']
  else if c.toNat = 8 then ['\\', 'b']
  else if c.toNat = 12 then ['\\', 'f']
  else if c.toNat < 32 then '\\' :: 'u' :: hex4 c.toNat
  else [c]

/-- A text between quotes, with quotes, backslashes and control characters escaped. -/
def quoted (s : String) : String :=
  String.ofList (['"'] ++ s.toList.flatMap escapedChar ++ ['"'])

/-- The text of a value that has no parts; brackets for one that has. -/
def scalar : Json → String
  | .bool b => if b then "true" else "false"
  | .int z => toString z
  | .float x => number.write x
  | .str s => quoted s
  | .arr _ => "[]"
  | .obj _ => "\x7b\x7d"

mutual

/-- The text of a value on one line, without blanks. -/
def compact : Json → String
  | .arr items => "[" ++ Text.joinWith "," (compactItems items) ++ "]"
  | .obj members => "\x7b" ++ Text.joinWith "," (compactMembers members) ++ "\x7d"
  | .bool b => scalar (.bool b)
  | .int z => scalar (.int z)
  | .float x => scalar (.float x)
  | .str s => scalar (.str s)

/-- The compact texts of the items of a list. -/
def compactItems : List Json → List String
  | [] => []
  | v :: rest => compact v :: compactItems rest

/-- The compact texts of the members of an object. -/
def compactMembers : List (String × Json) → List String
  | [] => []
  | (k, v) :: rest => (quoted k ++ ":" ++ compact v) :: compactMembers rest

end

/-- A line break followed by two blanks a level. -/
def newline (depth : Nat) : String := String.ofList ('\n' :: List.replicate (2 * depth) ' ')

/-- The parts of a value between brackets, each on a line of its own. -/
def block (depth : Nat) (opening closing : String) : List String → String
  | [] => opening ++ closing
  | parts =>
    opening ++ newline (depth + 1) ++ Text.joinWith ("," ++ newline (depth + 1)) parts
      ++ newline depth ++ closing

mutual

/-- The text of a value at a depth, with each part on a line of its own. -/
def prettyAt (depth : Nat) : Json → String
  | .arr items => block depth "[" "]" (prettyItems (depth + 1) items)
  | .obj members => block depth "\x7b" "\x7d" (prettyMembers (depth + 1) members)
  | .bool b => scalar (.bool b)
  | .int z => scalar (.int z)
  | .float x => scalar (.float x)
  | .str s => scalar (.str s)

/-- The indented texts of the items of a list. -/
def prettyItems (depth : Nat) : List Json → List String
  | [] => []
  | v :: rest => prettyAt depth v :: prettyItems depth rest

/-- The indented texts of the members of an object. -/
def prettyMembers (depth : Nat) : List (String × Json) → List String
  | [] => []
  | (k, v) :: rest => (quoted k ++ ": " ++ prettyAt depth v) :: prettyMembers depth rest

end

/-- The text of a value with each part on a line of its own. -/
def pretty (v : Json) : String := prettyAt 0 v

end Json

end ArgGrammar
