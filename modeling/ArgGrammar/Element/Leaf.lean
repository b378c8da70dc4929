import ArgGrammar.Element.Basic
import ArgGrammar.OrderedMap
import ArgGrammar.Text.Lowercase

/-!
# Leaves: single values

- `Reader`: reads one value off a cursor and completes a partial token.
- `Element.leaf`: a reader that records under a key.
- `Element.string`, `Element.integer`, `Element.long`, `Element.double`, `Element.boolean`,
  `Element.choices`, `Element.choicesFolded`, `Element.enumeration`, `Element.rest`,
  `Element.rawRest`: the leaves of this library.
- `Element.none`, `Element.markTrue`: elements that read nothing.
-/

namespace ArgGrammar

/-- Reads one value. There is a token to read when it is called; a failure leaves the cursor where
it arose. -/
structure Reader where
  /-- Reads one value. -/
  read : Cursor → Except ParseError Value × Cursor
  /-- The texts that a partial token may become. -/
  complete : String → List String

namespace Reader

/-- A reader of one token, by what its value means; failures are reported at the token. -/
def ofToken (convert : String → Except Complaint Value) (complete : String → List String) :
    Reader where
  read c :=
    match c.next with
    | .error e => (.error e, c)
    | .ok (t, c') =>
      match convert t.value with
      | .ok v => (.ok v, c')
      | .error complaint => (.error (c'.errorHere complaint), c')
  complete := complete

/-- A token as it is. -/
def text : Reader := ofToken (fun s => .ok (.text s)) (fun _ => [])

/-- An integer of a width. -/
def integer (w : Width) : Reader :=
  ofToken
    (fun s =>
      match Numeral.read w s with
      | .ok z => .ok (.int z)
      | .error fault => .error (.notInteger w s fault))
    (fun _ => [])

/-- A floating-point number. -/
def double : Reader :=
  ofToken
    (fun s =>
      match Decimal.read s with
      | .ok x => .ok (.float x)
      | .error fault => .error (.notDouble s fault))
    (fun _ => [])

/-- One of a set of words. With `fold` the case of the token does not count, and the words are in
lower case. -/
def choice (fold : Bool) (table : OrderedMap String Value) : Reader :=
  let normal (s : String) : String := if fold then Text.lower s else s
  ofToken
    (fun s =>
      match table.get? (normal s) with
      | some v => .ok v
      | none => .error (.notAChoice table.keys))
    (fun typed => table.keys.filter fun k => (normal typed).toList.isPrefixOf k.toList)

/-- All remaining tokens, with single blanks between them. -/
def joined : Reader where
  read c :=
    match c.next with
    | .error e => (.error e, c)
    | .ok _ =>
      (.ok (.text (Text.joinWith " " (c.rest.map (·.value)))), { c with index := c.tokens.length })
  complete _ := []

/-- The rest of the line as it was written. -/
def rawJoined : Reader where
  read c := (.ok (.text c.rawRest), { c with index := c.tokens.length })
  complete _ := []

end Reader

namespace Element

/-- Records the value of a reader under a key. -/
def leaf (key : String) (reader : Reader) : Element :=
  ofTrial (some key)
    (fun s =>
      if s.cursor.hasNext then
        match reader.read s.cursor with
        | (.ok v, c) => .ok (State.put ⟨c, s.context⟩ key v)
        | (.error e, c) => .failed e ⟨c, s.context⟩
      else .failed (s.cursor.errorAtEnd .notEnough) s)
    (fun s =>
      match s.cursor.next? with
      | some (t, c) => if c.hasNext then [] else reader.complete t.value
      | none => [])

/-- Reads nothing and records nothing. -/
def none : Element := ofTrial Option.none .ok (fun _ => [])

/-- Reads nothing and records `true` under a key. -/
def markTrue (key : String) : Element :=
  ofTrial (some key) (fun s => .ok (s.put key (.bool true))) (fun _ => [])

/-- One token as a text. -/
def string (key : String) : Element := leaf key .text

/-- An integer of 32 bits. -/
def integer (key : String) : Element := leaf key (.integer .word32)

/-- An integer of 64 bits. -/
def long (key : String) : Element := leaf key (.integer .word64)

/-- A floating-point number. -/
def double (key : String) : Element := leaf key .double

/-- One of a set of words, each with the value it stands for. -/
def choices (key : String) (table : List (String × Value)) : Element :=
  leaf key (.choice false (.ofList table))

/-- One of a set of words in either case, each with the value it stands for. -/
def choicesFolded (key : String) (table : List (String × Value)) : Element :=
  leaf key (.choice true (.ofList (table.map fun p => (Text.lower p.1, p.2))))

/-- The words for a truth value, with what they mean. -/
def booleanWords : List (String × Value) :=
  ["true", "t", "y", "yes", "verymuchso", "1"].map (·, .bool true)
    ++ ["false", "f", "n", "no", "notatall", "0"].map (·, .bool false)

/-- A truth value, written as one of several words. -/
def boolean (key : String) : Element := choices key booleanWords

/-- One of a set of names in either case; the name is recorded as it was declared. -/
def enumeration (key : String) (names : List String) : Element :=
  choicesFolded key (names.map fun n => (n, .text n))

/-- All remaining tokens, with single blanks between them. -/
def rest (key : String) : Element := leaf key .joined

/-- The rest of the line as it was written. -/
def rawRest (key : String) : Element := leaf key .rawJoined

end Element

end ArgGrammar
