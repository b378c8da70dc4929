import ArgGrammar.ParseError
import ArgGrammar.Token

/-!
# A place among the tokens of a line

A cursor reads tokens one by one and can go back to any earlier place. Whoever takes tokens out of
order replaces what is left by a new list, a *view*; older views stay, so that places in them still
mean what they meant.

- `Cursor`: the line, its views, and the place: a view and an index in it.
- `Cursor.Position`: a place to come back to.
- `Cursor.next`, `Cursor.peek`, `Cursor.previous`: reading and stepping back.
- `Cursor.restore`, `Cursor.splice`: going to a place, and replacing what is left.
- `Cursor.errorHere`, `Cursor.errorAtEnd`: errors at the last token read, and at the end of the
  line.
-/

namespace ArgGrammar

/-- A place among the tokens of a line. -/
structure Cursor where
  /-- The line. -/
  raw : String
  /-- The lists of tokens that were in view, the oldest first. -/
  views : List (List Token)
  /-- The number of the view that is read. -/
  view : Nat
  /-- The number of its tokens that are behind the place. -/
  index : Nat
  deriving DecidableEq, Repr

namespace Cursor

/-- A place to come back to. -/
structure Position where
  /-- The number of a view. -/
  view : Nat
  /-- The number of its tokens that are behind the place. -/
  index : Nat
  deriving DecidableEq, Repr

/-- Places are compared by view, then by index. -/
def Position.compare (a b : Position) : Ordering :=
  (Ord.compare a.view b.view).then (Ord.compare a.index b.index)

/-- A cursor before the first of the tokens of a line. -/
def ofTokens (raw : String) (tokens : List Token) : Cursor := ⟨raw, [tokens], 0, 0⟩

/-- A cursor over other tokens of the same line. -/
def onTokens (c : Cursor) (tokens : List Token) : Cursor := ofTokens c.raw tokens

/-- The tokens in view. -/
def tokens (c : Cursor) : List Token := c.views.getD c.view []

/-- The tokens that are not read yet. -/
def rest (c : Cursor) : List Token := c.tokens.drop c.index

/-- The number of tokens that are not read yet. -/
def remaining (c : Cursor) : Nat := c.tokens.length - c.index

/-- Whether there is a token to read. -/
def hasNext (c : Cursor) : Bool := c.index < c.tokens.length

/-- Whether there is a token to step back over. -/
def hasPrevious (c : Cursor) : Bool := 0 < c.index

/-- The values of all tokens in view. -/
def all (c : Cursor) : List String := c.tokens.map (·.value)

/-- The byte offset of the next token, or the end of the line. -/
def rawPosition (c : Cursor) : Nat :=
  match c.tokens[c.index]? with
  | some t => t.start
  | none => Text.size c.raw

/-- The line from the next token on. -/
def rawRest (c : Cursor) : String := Text.startingAt c.rawPosition c.raw

/-- The byte offset at which errors are reported: the start of the last token read, or of the first
one when none is. -/
def errorPosition (c : Cursor) : Nat :=
  match c.tokens[c.index - 1]? with
  | some t => t.start
  | none => 0

/-- An error at the last token read. -/
def errorHere (c : Cursor) (complaint : Complaint) : ParseError :=
  .located complaint c.raw c.errorPosition

/-- An error at the end of the line. -/
def errorAtEnd (c : Cursor) (complaint : Complaint) : ParseError :=
  .located complaint c.raw (Text.size c.raw)

/-- The next token, and the cursor behind it. -/
def next? (c : Cursor) : Option (Token × Cursor) :=
  c.tokens[c.index]?.map fun t => (t, { c with index := c.index + 1 })

/-- The next token and the cursor behind it, or an error at the end of the line. -/
def next (c : Cursor) : Except ParseError (Token × Cursor) :=
  match c.next? with
  | some r => .ok r
  | none => .error (c.errorAtEnd .noMore)

/-- The value of the next token. -/
def peek (c : Cursor) : Except ParseError String :=
  match c.next? with
  | some (t, _) => .ok t.value
  | none => .error (c.errorAtEnd .noMore)

/-- The value of the token before the place, and the cursor before it. -/
def previous (c : Cursor) : Except ParseError (String × Cursor) :=
  if 0 < c.index then
    match c.tokens[c.index - 1]? with
    | some t => .ok (t.value, { c with index := c.index - 1 })
    | none => .error (.located .noPrevious c.raw 0)
  else .error (.located .noPrevious c.raw 0)

/-- The place of the cursor. -/
def position (c : Cursor) : Position := ⟨c.view, c.index⟩

/-- Goes to a place. A view that does not exist leaves the view as it is, and an index behind the
end means the end. -/
def restore (c : Cursor) (p : Position) : Cursor :=
  let moved := if p.view < c.views.length then { c with view := p.view } else c
  { moved with index := min p.index moved.tokens.length }

/-- Whether there is a token to read at a place. -/
def hasNextAt (c : Cursor) (p : Position) : Bool := p.index < (c.views.getD p.view []).length

/-- Replaces the tokens of the view from a place on by others, and goes there. -/
def splice (c : Cursor) (p : Position) (rest : List Token) : Cursor :=
  let keep := min p.index c.tokens.length
  { c with
    views := c.views ++ [c.tokens.take keep ++ rest]
    view := c.views.length
    index := keep }

end Cursor

end ArgGrammar
