import ArgGrammar.Complaint
import ArgGrammar.Json
import ArgGrammar.Text.Bytes

/-!
# Errors at a place in the line

- `ParseError`: a complaint with the line it is about and a byte offset in it.
- `ParseError.annotated`: the message, the line around the place and a caret under it.
- `ParseError.report`: the error as JSON.
-/

namespace ArgGrammar

/-- A complaint about a place in a line. -/
structure ParseError where
  /-- What is wrong. -/
  complaint : Complaint
  /-- The whole line. -/
  raw : String
  /-- The byte offset of the place. -/
  position : Nat
  deriving DecidableEq, Repr

namespace ParseError

/-- An error at a byte offset, or at the end of the line when the offset lies behind it. -/
def located (complaint : Complaint) (raw : String) (position : Nat) : ParseError :=
  ⟨complaint, raw, min position (Text.size raw)⟩

/-- The category of an error. -/
def kind (e : ParseError) : ErrorKind := e.complaint.kind

/-- The wording of an error. -/
def message (e : ParseError) : String := e.complaint.message

/-- The text of the failure behind an error. -/
def cause? (e : ParseError) : Option String := e.complaint.cause?

/-- The number of characters shown on either side of the caret. -/
def window : Nat := 40

/-- The mark for text that is left out. -/
def ellipsis : List Char := ['.', '.', '.']

/-- The characters shown before the caret: the last ones, after a mark if there are more. -/
def shownBefore (before : List Char) : List Char :=
  (if window < before.length then ellipsis else []) ++ before.drop (before.length - window)

/-- The characters shown from the caret on: the first ones, with a mark if there are more. -/
def shownAfter (after : List Char) : List Char :=
  after.take window ++ (if window < after.length then ellipsis else [])

/-- The message, the line around the error and a caret under the place. -/
def annotated (e : ParseError) : String :=
  let before := shownBefore (Text.takeBytes e.position e.raw.toList)
  let after := shownAfter (Text.dropBytes e.position e.raw.toList)
  e.message ++ "\n" ++ String.ofList (before ++ after) ++ "\n"
    ++ String.ofList (List.replicate before.length ' ') ++ "^"

/-- The error as a JSON object; the cause is there only if there is one. -/
def report (e : ParseError) : Json :=
  .obj <|
    [("kind", .str e.kind.name), ("message", .str e.message), ("input", .str e.raw),
     ("position", .int e.position)]
      ++ (match e.cause? with
          | some text => [("cause", .str text)]
          | none => [])

end ParseError

end ArgGrammar
