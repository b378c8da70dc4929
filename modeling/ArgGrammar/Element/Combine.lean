import ArgGrammar.Element.Basic

/-!
# Elements made of elements

- `Element.seq`: one after another.
- `Element.optional`: may be skipped.
- `Element.firstOf`: the first alternative that parses.
- `Element.times`, `Element.allOf`: a number of times, and until the input ends.
- `Element.onlyOne`: at most one value under the key.
-/

namespace ArgGrammar.Element

/-! ## One after another -/

/-- Parses elements one after another. -/
def parseSeq : List Element → State → Outcome
  | [], s => .ok s
  | e :: es, s => (e.parse s).andThen (parseSeq es)

/-- Whether parsing elements one after another comes to an end. -/
def haltsSeq : List Element → State → Bool
  | [], _ => true
  | e :: es, s => e.halts s && (e.parse s).all (haltsSeq es)

/-- The steps of one element from each of several places. -/
def stepFrom (e : Element) (cursor : Cursor) (rs : List Resume) : Step :=
  rs.foldl (fun found r => found.merge (e.step ⟨found.cursor.restore r.position, r.context⟩))
    (.nothing cursor)

/-- The steps of elements one after another, from several places. -/
def thread : List Element → Cursor → List Resume → Step
  | [], cursor, rs => ⟨[], rs, cursor⟩
  | e :: es, cursor, rs =>
    let here := stepFrom e cursor rs
    if here.resumes.isEmpty then here
    else
      let later := thread es here.cursor here.resumes
      { later with candidates := here.candidates ++ later.candidates }

/-- The step of elements one after another: the places at which input is left are kept. -/
def stepSeq (es : List Element) (s : State) : Step :=
  let start := s.cursor.position
  let run := thread es s.cursor [⟨start, s.context⟩]
  let cursor := run.cursor.restore start
  ⟨distinct run.candidates, run.resumes.filter (cursor.hasNextAt ·.position), cursor⟩

/-- Elements one after another. -/
def seq (es : List Element) : Element := ofStep .none (parseSeq es) (haltsSeq es) (stepSeq es)

/-! ## Elements that may be skipped -/

/-- Records the default of a skipped element under its key, if it has both. -/
def recordDefault (e : Element) (default : Option Value) (s : State) : State :=
  match e.key, default with
  | some key, some v => s.put key v
  | _, _ => s

/-- Parses an element that may be skipped. It is skipped when no input is left, and when it fails
and either is `weak` or failed with input left. -/
def parseOptional (e : Element) (default : Option Value) (weak : Bool) (s : State) : Outcome :=
  if s.cursor.hasNext then
    match e.parse s with
    | .ok s' => .ok s'
    | .failed err s' =>
      if weak || s'.cursor.hasNext then .ok (recordDefault e default (s'.backTo s))
      else .failed err s'
  else .ok (recordDefault e default s)

/-- The step of an element that may be skipped. It follows the branch that parsing takes; an attempt
that reaches the last token leaves both branches open, since its outcome depends on what that token
becomes. -/
def stepOptional (e : Element) (default : Option Value) (weak : Bool) (s : State) : Step :=
  let start := s.cursor.position
  let skip : Resume := ⟨start, (recordDefault e default s).context⟩
  if s.cursor.hasNext then
    let trial := e.parse s
    let cursor := trial.state.cursor.restore start
    if trial.state.cursor.hasNext then
      if trial.isOk then e.step ⟨cursor, s.context⟩ else .resume skip cursor
    else
      let step := e.step ⟨cursor, s.context⟩
      let cursor := step.cursor.restore start
      if weak then { step with resumes := Resume.addTo step.resumes skip, cursor }
      else { step with cursor }
  else .resume skip s.cursor

/-- An element that may be skipped, with a value to record in that case. -/
def optional (e : Element) (default : Option Value) (weak : Bool) : Element :=
  ofStep e.key (parseOptional e default weak) (fun s => !s.cursor.hasNext || e.halts s)
    (stepOptional e default weak)

/-! ## Alternatives -/

/-- Tries alternatives from the state `start`, after the failure `last` of those before. -/
def parseFirst (start : State) : List Element → ParseError → State → Outcome
  | [], last, s => .failed last s
  | e :: es, _, s =>
    match e.parse s with
    | .ok s' => .ok s'
    | .failed err s' => parseFirst start es err (s'.backTo start)

/-- Whether trying alternatives comes to an end. -/
def haltsFirst (start : State) : List Element → State → Bool
  | [], _ => true
  | e :: es, s =>
    e.halts s &&
      match e.parse s with
      | .ok _ => true
      | .failed _ s' => haltsFirst start es (s'.backTo start)

/-- The steps of alternatives from one place; the first that gets anywhere says where to go on. -/
def stepFirst (start : Cursor.Position) (context : Context) : List Element → Cursor → Step
  | [], cursor => .nothing cursor
  | e :: es, cursor =>
    let first := e.step ⟨cursor.restore start, context⟩
    let others := stepFirst start context es first.cursor
    ⟨first.candidates ++ others.candidates,
      if first.resumes.isEmpty then others.resumes else first.resumes, others.cursor⟩

/-- The first alternative that parses; if none does, the failure is that of the last one. -/
def firstOf (es : List Element) : Element :=
  ofStep .none
    (fun s => parseFirst s es (s.cursor.errorHere .noAlternatives) s)
    (fun s => haltsFirst s es s)
    (fun s =>
      let start := s.cursor.position
      let run := stepFirst start s.context es s.cursor
      ⟨distinct run.candidates, run.resumes, run.cursor.restore start⟩)

/-! ## Repetition -/

/-- An element a fixed number of times. -/
def times (n : Nat) (e : Element) : Element :=
  ofStep e.key (parseSeq (List.replicate n e)) (haltsSeq (List.replicate n e))
    (stepSeq (List.replicate n e))

/-- Parses an element again and again until no input is left or the place stays the same, at most as
often as the first argument says. -/
def parseAll (e : Element) : Nat → State → Outcome
  | 0, s => .ok s
  | n + 1, s =>
    if s.cursor.hasNext then
      match e.parse s with
      | .ok s' =>
        if s'.cursor.position = s.cursor.position then .ok s' else parseAll e n s'
      | .failed err s' => .failed err s'
    else .ok s

/-- Whether parsing an element again and again comes to an end in so many rounds. -/
def haltsAll (e : Element) : Nat → State → Bool
  | 0, s => !s.cursor.hasNext
  | n + 1, s =>
    !s.cursor.hasNext ||
      (e.halts s &&
        (e.parse s).all fun s' =>
          if s'.cursor.position = s.cursor.position then true else haltsAll e n s')

/-- Takes steps of an element from every place not met before, at most as often as the first
argument says. -/
def stepAll (e : Element) :
    Nat → List Cursor.Position → Cursor → List Resume → List String × Cursor
  | 0, _, cursor, _ => ([], cursor)
  | n + 1, seen, cursor, rs =>
    if rs.isEmpty then ([], cursor)
    else
      let here := stepFrom e cursor rs
      let fresh := here.resumes.filter (·.position ∉ seen)
      let (candidates, cursor) :=
        stepAll e n (seen ++ fresh.map (·.position)) here.cursor fresh
      (here.candidates ++ candidates, cursor)

/-- An element until no input is left. There is a round for each token that is left, one more, and
`patience` others for those that take no token. Such a round stays or adds a view to the cursor, so by
default there are as many as a machine word can number views. -/
def allOf (e : Element) (patience : Nat := UInt64.size) : Element :=
  ofStep e.key
    (fun s => parseAll e (s.cursor.remaining + 1 + patience) s)
    (fun s => haltsAll e (s.cursor.remaining + 1 + patience) s)
    (fun s =>
      let start := s.cursor.position
      let (candidates, cursor) :=
        stepAll e (s.cursor.remaining + 1 + patience) [start] s.cursor [⟨start, s.context⟩]
      .offer (distinct candidates) (cursor.restore start))

/-! ## At most one value -/

/-- Fails when the key of the element holds more than one value after it. -/
def onlyOne (e : Element) : Element :=
  { e with
    parse := fun s =>
      (e.parse s).andThen fun s' =>
        match e.key with
        | some key =>
          if 1 < s'.context.count key then .failed (s'.cursor.errorHere (.repeated key)) s'
          else .ok s'
        | .none => .ok s' }

end ArgGrammar.Element
