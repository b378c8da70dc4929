import ArgGrammar.Context
import ArgGrammar.Cursor

/-!
# Elements of a grammar

An element is what it does with the tokens at hand. Parsing moves a cursor and records values; on
failure both stay wherever the element stopped, and whoever tries something else goes back.
Completing looks for texts that may replace the last token of the line. It proceeds in steps: a step
gives the candidates of one element together with the places behind it that are not the last token
yet, from which the next element goes on.

- `State`, `Outcome`: a cursor with a context, and the result of parsing.
- `Resume`, `Step`: a place to go on from, and the result of a step of completion.
- `Element`: how to parse and how to complete.
- `Element.speculate`: the step of an element that is parsed on trial.
-/

namespace ArgGrammar

/-- A place among the tokens together with what is recorded so far. -/
structure State where
  /-- The place. -/
  cursor : Cursor
  /-- What is recorded. -/
  context : Context
  deriving DecidableEq, Repr

namespace State

/-- Appends a value under a key. -/
def put (s : State) (key : String) (v : Value) : State := { s with context := s.context.put key v }

/-- Goes to a place. -/
def goTo (s : State) (p : Cursor.Position) : State := { s with cursor := s.cursor.restore p }

/-- Goes back to the place and the recorded values of an earlier state. -/
def backTo (s start : State) : State :=
  ⟨s.cursor.restore start.cursor.position, s.context.rollback start.context.mark⟩

end State

/-- The result of parsing; a failure keeps the state in which it arose. -/
inductive Outcome where
  | ok (s : State)
  | failed (e : ParseError) (s : State)
  deriving DecidableEq, Repr

namespace Outcome

/-- The state at the end. -/
def state : Outcome → State
  | ok s => s
  | failed _ s => s

/-- Whether parsing succeeded. -/
def isOk : Outcome → Bool
  | ok _ => true
  | failed .. => false

/-- Goes on after a success. -/
def andThen (o : Outcome) (f : State → Outcome) : Outcome :=
  match o with
  | ok s => f s
  | failed e s => failed e s

/-- Whether a condition holds after a success; a failure meets it. -/
def all (o : Outcome) (p : State → Bool) : Bool :=
  match o with
  | ok s => p s
  | failed .. => true

end Outcome

/-- A place from which the next element goes on completing. -/
structure Resume where
  /-- The place. -/
  position : Cursor.Position
  /-- What is recorded on the way to it. -/
  context : Context
  deriving DecidableEq, Repr

/-- Adds a place to go on from, unless there is one at the same position. -/
def Resume.addTo (rs : List Resume) (r : Resume) : List Resume :=
  if rs.any (·.position = r.position) then rs else rs ++ [r]

/-- Adds places to go on from, keeping the first of each position. -/
def Resume.union (rs more : List Resume) : List Resume := more.foldl Resume.addTo rs

/-- The result of a step of completion. -/
structure Step where
  /-- The texts that may replace the last token. -/
  candidates : List String
  /-- The places from which the next element goes on, each at most once. -/
  resumes : List Resume
  /-- The cursor at its place from before the step, with the views that the step added. -/
  cursor : Cursor
  deriving DecidableEq, Repr

namespace Step

/-- A step that found nothing. -/
def nothing (cursor : Cursor) : Step := ⟨[], [], cursor⟩

/-- A step that offers candidates and goes nowhere. -/
def offer (candidates : List String) (cursor : Cursor) : Step := ⟨candidates, [], cursor⟩

/-- A step that goes on from one place. -/
def resume (r : Resume) (cursor : Cursor) : Step := ⟨[], [r], cursor⟩

/-- Adds what a later step found. -/
def merge (a b : Step) : Step :=
  ⟨a.candidates ++ b.candidates, Resume.union a.resumes b.resumes, b.cursor⟩

end Step

/-- The texts of a list, the first of each. -/
def distinct (texts : List String) : List String :=
  texts.foldl (fun seen t => if t ∈ seen then seen else seen ++ [t]) []

/-- What an element of a grammar does. -/
structure Element where
  /-- The key under which it records, if it has one of its own. -/
  key : Option String
  /-- Reads tokens and records values. -/
  parse : State → Outcome
  /-- Whether reading comes to an end. Every repetition has a number of rounds, after which `parse`
  leaves it; this says that none of them needs more. -/
  halts : State → Bool
  /-- The texts that may replace the last token, if the element starts reading here. -/
  complete : State → List String
  /-- One step of completion. -/
  step : State → Step

namespace Element

/-- The step of an element that is parsed on trial: if that succeeds before the last token, the next
element goes on from there; otherwise the element's own candidates are offered. -/
def speculate (parse : State → Outcome) (complete : State → List String) (s : State) : Step :=
  let start := s.cursor.position
  let trial := parse s
  let cursor := trial.state.cursor.restore start
  if trial.isOk && trial.state.cursor.hasNext then
    .resume ⟨trial.state.cursor.position, trial.state.context⟩ cursor
  else .offer (complete ⟨cursor, s.context⟩) cursor

/-- An element without repetition, whose step is a trial parse. -/
def ofTrial (key : Option String) (parse : State → Outcome) (complete : State → List String) :
    Element :=
  { key, parse, halts := fun _ => true, complete, step := speculate parse complete }

/-- An element whose candidates are those of its step. -/
def ofStep (key : Option String) (parse : State → Outcome) (halts : State → Bool)
    (step : State → Step) : Element :=
  { key, parse, halts, complete := fun s => (step s).candidates, step }

end Element

end ArgGrammar
