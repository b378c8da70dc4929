import ArgGrammar.Toml.Atom
import ArgGrammar.Toml.Text

/-!
# Reading TOML documents

Every reader takes the characters at hand and gives back those that follow what it read. Repetition
is bounded by a number of rounds, for which the length of the document is enough, and nesting by
`Toml.maxDepth`.

- `Toml.readKey`, `Toml.readValue`: a key of one or more parts, and a value.
- `Toml.readStatements`: the statements of a document.
- `Toml.read?`: the table that a document describes.
-/

namespace ArgGrammar.Toml

/-- Drops blanks inside a line. -/
def skipSpaces (cs : List Char) : List Char := cs.dropWhile isSpace

/-- Drops a comment up to the end of its line. -/
def skipComment : List Char → Option (List Char)
  | [] => some []
  | '\n' :: cs => some ('\n' :: cs)
  | '\r' :: '\n' :: cs => some ('\r' :: '\n' :: cs)
  | c :: cs => if isControl c then none else skipComment cs

/-- Drops the rest of a line that may hold a comment, and its line break. -/
def endLine (cs : List Char) : Option (List Char) :=
  let behind :=
    match skipSpaces cs with
    | '#' :: rest => skipComment rest
    | rest => some rest
  behind.bind fun rest =>
    match rest with
    | [] => some []
    | rest => lineBreak? rest

/-- Drops blanks, line breaks and comments; `comment` tells whether a comment is open. -/
def skipFill (comment : Bool) : List Char → Option (List Char)
  | [] => some []
  | '\n' :: cs => skipFill false cs
  | '\r' :: '\n' :: cs => skipFill false cs
  | c :: cs =>
    if comment then (if isControl c then none else skipFill true cs)
    else if isSpace c then skipFill false cs
    else if c = '#' then skipFill true cs
    else some (c :: cs)

/-- Whether `c` may stand in a key without quotes. -/
def isBare (c : Char) : Bool := c.isAlphanum || c = '_' || c = '-'

/-- Reads one part of a key. -/
def readPart (cs : List Char) : Option (String × List Char) :=
  match cs with
  | '"' :: rest => (basicBody rest).map fun p => (String.ofList p.1, p.2)
  | '\'' :: rest => (literalBody rest).map fun p => (String.ofList p.1, p.2)
  | cs =>
    match cs.takeWhile isBare with
    | [] => none
    | part => some (String.ofList part, cs.dropWhile isBare)

/-- The most parts that a key may have, and the most brackets that may be open inside a value. -/
def maxDepth : Nat := 80

/-- Reads a key of one or more parts with points between them, at most as many as the first argument
says, and the blanks behind it. -/
def readKey : Nat → List Char → Option (List String × List Char)
  | 0, _ => none
  | n + 1, cs =>
    match readPart (skipSpaces cs) with
    | none => none
    | some (part, rest) =>
      match skipSpaces rest with
      | '.' :: rest => (readKey n rest).map fun p => (part :: p.1, p.2)
      | rest => some ([part], rest)

/-- Whether `c` may stand in a value without quotes and brackets. -/
def isAtomChar (c : Char) : Bool :=
  !(isSpace c || c = '\n' || c = '\r' || c = '=' || c = ',' || c = '#' || c = '[' || c = ']'
    || c.toNat = 0x7B || c.toNat = 0x7D)

/-- Takes the characters of a value without quotes and brackets. A blank may stand between a date
and a time. -/
def takeAtom (cs : List Char) : List Char × List Char :=
  let front := cs.takeWhile isAtomChar
  match cs.dropWhile isAtomChar with
  | ' ' :: rest =>
    if isDate front && (rest.take 1).all Decimal.isDigit && !rest.isEmpty then
      (front ++ ' ' :: rest.takeWhile isAtomChar, rest.dropWhile isAtomChar)
    else (front, ' ' :: rest)
  | rest => (front, rest)

/-- Reads the key of a member of a table in braces, the sign behind it, and what is to be skipped in
front of the value. -/
def readAssigned (cs : List Char) : Option (List String × List Char) :=
  match readKey maxDepth cs with
  | none => none
  | some (key, rest) =>
    match skipFill false rest with
    | some ('=' :: rest) => (skipFill false rest).map fun rest => (key, rest)
    | _ => none

mutual

/-- Reads a value; `room` is the number of brackets that may still be opened. -/
def readValue : Nat → Nat → List Char → Option (Toml × List Char)
  | 0, _, _ => none
  | n + 1, room, cs =>
    match cs with
    | '"' :: '"' :: '"' :: rest =>
      (multiBasicBody (n + 1) (dropFirstBreak rest)).map fun p => (.str (String.ofList p.1), p.2)
    | '"' :: rest => (basicBody rest).map fun p => (.str (String.ofList p.1), p.2)
    | '\'' :: '\'' :: '\'' :: rest =>
      (multiLiteralBody (dropFirstBreak rest)).map fun p => (.str (String.ofList p.1), p.2)
    | '\'' :: rest => (literalBody rest).map fun p => (.str (String.ofList p.1), p.2)
    | '[' :: rest =>
      if room = 0 then none else (readItems n (room - 1) rest).map fun p => (.arr p.1, p.2)
    | c :: rest =>
      if c.toNat = 0x7B then
        if room = 0 then none
        else (readMembers n (room - 1) [] rest).map fun p => (.table .inline p.1, p.2)
      else
        let (atom, rest) := takeAtom (c :: rest)
        (atom? atom).map fun v => (v, rest)
    | [] => none

/-- Reads the items of an array up to its closing bracket. -/
def readItems : Nat → Nat → List Char → Option (List Toml × List Char)
  | 0, _, _ => none
  | n + 1, room, cs =>
    match skipFill false cs with
    | none => none
    | some (']' :: rest) => some ([], rest)
    | some cs =>
      match readValue n room cs with
      | none => none
      | some (v, rest) =>
        match skipFill false rest with
        | some (']' :: rest) => some ([v], rest)
        | some (',' :: rest) => (readItems n room rest).map fun p => (v :: p.1, p.2)
        | _ => none

/-- Reads the members of a table in braces, after those already read. All of their parts may stand
on lines of their own, and a comma may stand behind the last one. -/
def readMembers : Nat → Nat → Entries → List Char → Option (Entries × List Char)
  | 0, _, _, _ => none
  | n + 1, room, es, cs =>
    match skipFill false cs with
    | none => none
    | some [] => none
    | some (c :: cs) =>
      if c.toNat = 0x7D then some (es, cs)
      else
        match readAssigned (c :: cs) with
        | none => none
        | some (key, rest) =>
          match readValue n room rest with
          | none => none
          | some (v, rest) =>
            match set key v es, skipFill false rest with
            | some es, some (c :: rest) =>
              if c = ',' then readMembers n room es rest
              else if c.toNat = 0x7D then some (es, rest)
              else none
            | _, _ => none

end

/-- Reads the closing bracket of a header and the end of its line. -/
def endHeader : List Char → Option (List Char)
  | ']' :: cs => endLine cs
  | _ => none

/-- Reads one statement that starts at the head of the characters. -/
def readStatement (n : Nat) (cs : List Char) : Option (Statement × List Char) :=
  match cs with
  | '[' :: '[' :: rest =>
    match readKey maxDepth rest with
    | some (key, ']' :: rest) => (endHeader rest).map fun rest => (.item key, rest)
    | _ => none
  | '[' :: rest =>
    match readKey maxDepth rest with
    | some (key, rest) => (endHeader rest).map fun rest => (.header key, rest)
    | none => none
  | cs =>
    match readKey maxDepth cs with
    | some (key, '=' :: rest) =>
      match readValue n maxDepth (skipSpaces rest) with
      | some (v, rest) => (endLine rest).map fun rest => (.assign key v, rest)
      | none => none
    | _ => none

/-- Reads the statements of a document, at most as many as the first argument says; `size` bounds
the rounds inside a statement. -/
def readStatements (size : Nat) : Nat → List Char → Option (List Statement)
  | 0, cs => if cs.isEmpty then some [] else none
  | n + 1, cs =>
    match skipSpaces cs with
    | [] => some []
    | '\n' :: rest => readStatements size n rest
    | '\r' :: '\n' :: rest => readStatements size n rest
    | '#' :: rest => (endLine ('#' :: rest)).bind (readStatements size n)
    | cs =>
      match readStatement size cs with
      | none => none
      | some (s, rest) => (readStatements size n rest).map (s :: ·)

/-- The document without a byte order mark. -/
def dropMark : List Char → List Char
  | c :: cs => if c.toNat = 0xFEFF then cs else c :: cs
  | [] => []

/-- The table that a document describes, if it is well formed. -/
def read? (text : String) : Option Entries :=
  let cs := dropMark text.toList
  (readStatements (cs.length + 1) (cs.length + 1) cs).bind ofStatements?

end ArgGrammar.Toml
