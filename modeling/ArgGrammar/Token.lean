import ArgGrammar.Json

/-!
# Tokens

- `Token`: a piece of a command line, with the bytes it was read from.
-/

namespace ArgGrammar

/-- A piece of a command line: its text once quotes and escapes are resolved, and the bytes from
which it was read. -/
structure Token where
  /-- The text that the token stands for. -/
  value : String
  /-- The byte offset of its first character, quotes included. -/
  start : Nat
  /-- The byte offset just past its last character. -/
  stop : Nat
  deriving DecidableEq, Repr

/-- A token as JSON. -/
def Token.toJson (t : Token) : Json :=
  .obj [("value", .str t.value), ("start", .int t.start), ("end", .int t.stop)]

end ArgGrammar
