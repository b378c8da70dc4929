import ArgGrammar.Element.Leaf
import ArgGrammar.Element.UnknownFlag

/-!
# Flags among the arguments

Tokens `-abc`, `--name` and `--name=value` are flags. They may stand before, between and behind the
other tokens, the *positional* ones, which are read as if the flags had never been typed; anchored
flags stand before the first positional token only.

- `FlagWord`: what a token is to a scan for flags.
- `Flags`: the elements run for each flag, and what happens to the others.
- `Flags.flag`, `Flags.valueFlag`: definitions of flags.
- `Flags.scan`: takes the flags out of the tokens that are left.
- `Flags.around`: an element together with flags around it.
-/

namespace ArgGrammar

/-- What a token is to a scan for flags. -/
inductive FlagWord where
  /-- A name after two hyphens, with the text behind an equals sign. -/
  | long (name : String) (inline : Option String)
  /-- A group of names of one character after a hyphen. -/
  | short (group : List Char)
  /-- Anything else. -/
  | positional
  deriving DecidableEq, Repr

namespace FlagWord

/-- Splits the text after two hyphens at the first equals sign. -/
def ofLong (cs : List Char) : FlagWord :=
  let name := String.ofList (cs.takeWhile (· != '='))
  match cs.dropWhile (· != '=') with
  | [] => long name none
  | _ :: value => long name (some (String.ofList value))

/-- Tells what a token is. One or two hyphens alone are positional. -/
def ofText (s : String) : FlagWord :=
  match s.toList with
  | ['-', '-'] => positional
  | '-' :: '-' :: cs => ofLong cs
  | '-' :: c :: cs => short (c :: cs)
  | _ => positional

end FlagWord

/-- Definitions of flags. -/
structure Flags where
  /-- The elements of the flags of one character. -/
  short : OrderedMap Char Element := []
  /-- The elements of the long flags, whose names are in lower case. -/
  long : OrderedMap String Element := []
  /-- What happens to a flag of one character without a definition. -/
  unknownShort : UnknownFlag := .reject
  /-- What happens to a long flag without a definition. -/
  unknownLong : UnknownFlag := .reject
  /-- Whether flags end at the first positional token. -/
  anchored : Bool := false

namespace Flags

/-! ## Definitions -/

/-- Runs an element for each name of a specification: a long name after a hyphen, and otherwise one
name a character. -/
def defineSpec (e : Element) (f : Flags) (spec : String) : Flags :=
  match spec.toList with
  | '-' :: cs => { f with long := f.long.insert (Text.lower (String.ofList cs)) e }
  | cs => { f with short := cs.foldl (fun m c => m.insert c e) f.short }

/-- Adds a flag whose value is read by an element. -/
def valueFlag (f : Flags) (e : Element) (specs : List String) : Flags :=
  specs.foldl (defineSpec e) f

/-- The first name of a specification. -/
def firstName? (spec : String) : Option String :=
  match spec.toList with
  | [] => none
  | ['-'] => none
  | '-' :: cs => some (String.ofList cs)
  | c :: _ => some (String.singleton c)

/-- Adds a flag without a value; it records `true` under its first name, and without one there is no
flag. -/
def flag (f : Flags) (specs : List String) : Flags :=
  match specs.head?.bind firstName? with
  | some key => f.valueFlag (.markTrue key) specs
  | none => f

/-- The element of a long flag; the case of the name does not count. -/
def long? (f : Flags) (name : String) : Option Element := f.long.get? (Text.lower name)

/-- The element of a flag of one character. -/
def short? (f : Flags) (name : Char) : Option Element := f.short.get? name

/-! ## Parsing -/

/-- A cursor over the value of a token `--name=value`. If the token stands in the line as it is, the
value starts where it is written, and otherwise where the token does. -/
def inlineCursor (c : Cursor) (t : Token) (value : String) : Cursor :=
  let start :=
    if Text.slice t.start t.stop c.raw = t.value then t.stop - Text.size value else t.start
  c.onTokens [⟨value, start, t.stop⟩]

/-- The outcome of work on other tokens, with the cursor that stays in use. -/
def onCursor (c : Cursor) : Outcome → Outcome
  | .ok s => .ok ⟨c, s.context⟩
  | .failed e s => .failed e ⟨c, s.context⟩

/-- Handles a long flag whose token `t` was just read. -/
def parseLong (f : Flags) (name : String) (inline : Option String) (t : Token) (s : State) :
    Outcome :=
  match f.long? name, inline with
  | some e, none => e.parse s
  | some e, some value =>
    onCursor s.cursor (e.parse ⟨inlineCursor s.cursor t value, s.context⟩)
  | none, inline =>
    match f.unknownLong, inline with
    | .reject, _ => .failed (s.cursor.errorHere (.unknownLong name)) s
    | .ignore, _ => .ok s
    | .acceptNonvalue, some value => .ok (s.put name (.text value))
    | .acceptNonvalue, none => .ok (s.put name (.bool true))
    | .acceptValue, some value => .ok (s.put name (.text value))
    | .acceptValue, none => (Element.string name).parse s

/-- Handles a flag of one character. -/
def parseShort (f : Flags) (name : Char) (s : State) : Outcome :=
  match f.short? name with
  | some e => e.parse s
  | none =>
    match f.unknownShort with
    | .reject => .failed (s.cursor.errorHere (.unknownShort name)) s
    | .ignore => .ok s
    | .acceptNonvalue => .ok (s.put (String.singleton name) (.bool true))
    | .acceptValue => (Element.string (String.singleton name)).parse s

/-- Handles a group of flags of one character. -/
def parseGroup (f : Flags) : List Char → State → Outcome
  | [], s => .ok s
  | c :: cs, s => (f.parseShort c s).andThen (f.parseGroup cs)

/-- Handles the flags among the tokens that are left, and collects the positional tokens. Each round
reads a token; the first argument bounds their number. -/
def scan (f : Flags) : Nat → State → Outcome × List Token
  | 0, s => (.ok s, [])
  | n + 1, s =>
    match s.cursor.next? with
    | none => (.ok s, [])
    | some (t, c) =>
      let behind : State := ⟨c, s.context⟩
      match FlagWord.ofText t.value with
      | .positional =>
        if f.anchored then (.ok s, [])
        else
          let (o, ts) := f.scan n behind
          (o, t :: ts)
      | .long name inline =>
        match f.parseLong name inline t behind with
        | .ok s' => f.scan n s'
        | .failed e s' => (.failed e s', [])
      | .short group =>
        match f.parseGroup group behind with
        | .ok s' => f.scan n s'
        | .failed e s' => (.failed e s', [])

/-- Parses flags and the element that they stand around. Positional tokens that the element leaves
are what is left of the line, without the flags. -/
def parse (f : Flags) (child : Element) (s : State) : Outcome :=
  let (o, positional) := f.scan s.cursor.remaining s
  o.andThen fun s' =>
    if f.anchored then child.parse s'
    else
      let inner := child.parse ⟨s'.cursor.onTokens positional, s'.context⟩
      let left := inner.state.cursor
      let cursor :=
        if left.hasNext then s'.cursor.splice s.cursor.position left.rest else s'.cursor
      onCursor cursor inner

/-! ## Coming to an end -/

/-- Whether handling a long flag comes to an end. -/
def haltsLong (f : Flags) (name : String) (inline : Option String) (t : Token) (s : State) : Bool :=
  match f.long? name, inline with
  | some e, none => e.halts s
  | some e, some value => e.halts ⟨inlineCursor s.cursor t value, s.context⟩
  | none, _ => true

/-- Whether handling a flag of one character comes to an end. -/
def haltsShort (f : Flags) (name : Char) (s : State) : Bool :=
  match f.short? name with
  | some e => e.halts s
  | none => true

/-- Whether handling a group of flags comes to an end. -/
def haltsGroup (f : Flags) : List Char → State → Bool
  | [], _ => true
  | c :: cs, s => f.haltsShort c s && (f.parseShort c s).all (f.haltsGroup cs)

/-- Whether the flags among the tokens that are left are handled. -/
def haltsScan (f : Flags) : Nat → State → Bool
  | 0, _ => true
  | n + 1, s =>
    match s.cursor.next? with
    | none => true
    | some (t, c) =>
      let behind : State := ⟨c, s.context⟩
      match FlagWord.ofText t.value with
      | .positional => f.anchored || f.haltsScan n behind
      | .long name inline =>
        f.haltsLong name inline t behind && (f.parseLong name inline t behind).all (f.haltsScan n)
      | .short group =>
        f.haltsGroup group behind && (f.parseGroup group behind).all (f.haltsScan n)

/-- Whether parsing flags and the element that they stand around comes to an end. -/
def halts (f : Flags) (child : Element) (s : State) : Bool :=
  let (o, positional) := f.scan s.cursor.remaining s
  f.haltsScan s.cursor.remaining s &&
    o.all fun s' =>
      child.halts (if f.anchored then s' else ⟨s'.cursor.onTokens positional, s'.context⟩)

/-! ## Completion -/

/-- The long flags that a name may become. -/
def longNames (f : Flags) (typed : String) : List String :=
  let typed := Text.lower typed
  (f.long.keys.filter fun name => typed.toList.isPrefixOf name.toList).map ("--" ++ ·)

/-- The texts that a last token `--name=value` may become. -/
def completeInline (f : Flags) (name value : String) (t : Token) (s : State) : List String :=
  match f.long? name with
  | none => []
  | some e =>
    (e.complete ⟨inlineCursor s.cursor t value, s.context⟩).map fun candidate =>
      "--" ++ name ++ "=" ++ candidate

/-- What becomes of a scan for completion after a flag. -/
inductive Progress where
  /-- The last token is reached, with these candidates for it. -/
  | reached (candidates : List String)
  /-- The scan goes on. -/
  | going (s : State)

/-- Reads the value of a defined flag, or completes it if it is not followed by other tokens. -/
def completeValue (e : Element) (s : State) : Progress :=
  let trial := e.parse s
  if trial.isOk && trial.state.cursor.hasNext then .going trial.state
  else .reached (e.complete ⟨trial.state.cursor.restore s.cursor.position, s.context⟩)

/-- Reads the value of an undefined flag, if it takes one. -/
def skipValue (policy : UnknownFlag) (s : State) : Progress :=
  match policy, s.cursor.next? with
  | .acceptValue, some (_, c) => if c.hasNext then .going ⟨c, s.context⟩ else .reached []
  | _, _ => .going s

/-- Reads a group of flags of one character. -/
def completeGroup (f : Flags) : List Char → State → Progress
  | [], s => .going s
  | c :: cs, s =>
    let here :=
      match f.short? c with
      | some e => completeValue e s
      | none => skipValue f.unknownShort s
    match here with
    | .reached candidates => .reached candidates
    | .going s' => f.completeGroup cs s'

/-- Scans the tokens for the one to complete. `positional` holds the positional tokens met before;
the first argument bounds the number of rounds. -/
def completeScan (f : Flags) (child : Element) : Nat → List Token → State → List String
  | 0, positional, s => child.complete ⟨s.cursor.onTokens positional, s.context⟩
  | n + 1, positional, s =>
    match s.cursor.next? with
    | none => child.complete ⟨s.cursor.onTokens positional, s.context⟩
    | some (t, c) =>
      let behind : State := ⟨c, s.context⟩
      match FlagWord.ofText t.value with
      | .positional =>
        if !c.hasNext && t.value = "--" then f.longNames ""
        else if f.anchored then child.complete s
        else f.completeScan child n (positional ++ [t]) behind
      | .long name none =>
        if c.hasNext then
          let here :=
            match f.long? name with
            | some e => completeValue e behind
            | none => skipValue f.unknownLong behind
          match here with
          | .reached candidates => candidates
          | .going s' => f.completeScan child n positional s'
        else f.longNames name
      | .long name (some value) =>
        if c.hasNext then f.completeScan child n positional behind
        else f.completeInline name value t behind
      | .short group =>
        if c.hasNext then
          match f.completeGroup group behind with
          | .reached candidates => candidates
          | .going s' => f.completeScan child n positional s'
        else []

/-- The texts that the last token may become. -/
def complete (f : Flags) (child : Element) (s : State) : List String :=
  f.completeScan child s.cursor.remaining [] s

/-- Whether the last token that is left is two hyphens. -/
def endsWithDashes (c : Cursor) : Bool :=
  match c.rest.getLast? with
  | some t => t.value = "--"
  | none => false

/-- A step of completion. Two hyphens at the end that are left to the next element may still become
a flag. -/
def step (f : Flags) (child : Element) (s : State) : Step :=
  let found := Element.speculate (f.parse child) (f.complete child) s
  if !f.anchored && endsWithDashes s.cursor && !found.resumes.isEmpty then
    { found with candidates := found.candidates ++ f.longNames "" }
  else found

/-- An element with flags around it. -/
def around (f : Flags) (child : Element) : Element where
  key := none
  parse := f.parse child
  halts := f.halts child
  complete := f.complete child
  step := f.step child

end Flags

end ArgGrammar
