import ArgGrammar.Number.Numeral

/-!
# TOML strings

A basic string stands in double quotes and has escapes; a literal one stands in single quotes and is
taken as it is. With three quotes at either end a string may have several lines, and a line break
right behind the opening quotes does not count.

- `Toml.basicBody`, `Toml.literalBody`: the characters up to the closing quote, and what follows.
- `Toml.multiBasicBody`, `Toml.multiLiteralBody`: the same for several lines.
- `Toml.writeString`: a text in the plainest form that can hold it.
-/

namespace ArgGrammar.Toml

/-- Whether `c` is a control character other than a tab. -/
def isControl (c : Char) : Bool := (c.toNat < 32 && c != '\t') || c.toNat = 127

/-- Puts a character in front of what was read. -/
def push (c : Char) (r : Option (List Char × List Char)) : Option (List Char × List Char) :=
  r.map fun p => (c :: p.1, p.2)

/-- The character that a letter behind a backslash stands for. -/
def escape? (c : Char) : Option Char :=
  if c = 'b' then some (Char.ofNat 8)
  else if c = 't' then some '\t'
  else if c = 'n' then some '\n'
  else if c = 'f' then some (Char.ofNat 12)
  else if c = 'r' then some '\r'
  else if c = 'e' then some (Char.ofNat 27)
  else if c = '"' then some '"'
  else if c = '\\' then some '\\'
  else none

/-- The character with a code point given in hexadecimal digits. -/
def codePoint? (ds : List Char) : Option Char :=
  if ds.all fun c => (Numeral.digit? 16 c).isSome then
    let n := ds.foldl (fun n c => n * 16 + (Numeral.digit? 16 c).getD 0) 0
    if n.isValidChar then some (Char.ofNat n) else none
  else none

/-- Reads a basic string behind its opening quote. -/
def basicBody : List Char → Option (List Char × List Char)
  | [] => none
  | '"' :: cs => some ([], cs)
  | '\\' :: 'x' :: a :: b :: cs => (codePoint? [a, b]).bind fun x => push x (basicBody cs)
  | '\\' :: 'u' :: a :: b :: c :: d :: cs =>
    (codePoint? [a, b, c, d]).bind fun x => push x (basicBody cs)
  | '\\' :: 'U' :: a :: b :: c :: d :: e :: f :: g :: h :: cs =>
    (codePoint? [a, b, c, d, e, f, g, h]).bind fun x => push x (basicBody cs)
  | '\\' :: c :: cs => (escape? c).bind fun x => push x (basicBody cs)
  | c :: cs => if isControl c || c = '\\' then none else push c (basicBody cs)

/-- Reads a literal string behind its opening quote. -/
def literalBody : List Char → Option (List Char × List Char)
  | [] => none
  | '\'' :: cs => some ([], cs)
  | c :: cs => if isControl c then none else push c (literalBody cs)

/-- Whether `c` is a blank inside a line. -/
def isSpace (c : Char) : Bool := c = ' ' || c = '\t'

/-- What follows a line break at the head of the characters. -/
def lineBreak? : List Char → Option (List Char)
  | '\n' :: cs => some cs
  | '\r' :: '\n' :: cs => some cs
  | _ => none

/-- Leaves out a line break right behind the opening quotes. -/
def dropFirstBreak (cs : List Char) : List Char := (lineBreak? cs).getD cs

/-- Leaves out blanks and line breaks, as behind a backslash that ends a line. -/
def dropFill : List Char → List Char
  | '\r' :: '\n' :: cs => dropFill cs
  | c :: cs => if isSpace c || c = '\n' then dropFill cs else c :: cs
  | [] => []

/-- Reads a basic string of several lines behind its opening quotes. Up to two quotes may stand
before the closing ones. The first argument bounds the number of characters. -/
def multiBasicBody : Nat → List Char → Option (List Char × List Char)
  | 0, _ => none
  | n + 1, cs =>
    match cs with
    | '"' :: '"' :: '"' :: '"' :: '"' :: rest => some (['"', '"'], rest)
    | '"' :: '"' :: '"' :: '"' :: rest => some (['"'], rest)
    | '"' :: '"' :: '"' :: rest => some ([], rest)
    | '\\' :: 'x' :: a :: b :: rest =>
      (codePoint? [a, b]).bind fun x => push x (multiBasicBody n rest)
    | '\\' :: 'u' :: a :: b :: c :: d :: rest =>
      (codePoint? [a, b, c, d]).bind fun x => push x (multiBasicBody n rest)
    | '\\' :: 'U' :: a :: b :: c :: d :: e :: f :: g :: h :: rest =>
      (codePoint? [a, b, c, d, e, f, g, h]).bind fun x => push x (multiBasicBody n rest)
    | '\\' :: c :: rest =>
      match escape? c with
      | some x => push x (multiBasicBody n rest)
      | none =>
        match lineBreak? ((c :: rest).dropWhile isSpace) with
        | some later => multiBasicBody n (dropFill later)
        | none => none
    | '\r' :: '\n' :: rest => push '\r' (push '\n' (multiBasicBody n rest))
    | c :: rest =>
      if (isControl c && c != '\n') || c = '\\' then none else push c (multiBasicBody n rest)
    | [] => none

/-- Reads a literal string of several lines behind its opening quotes. -/
def multiLiteralBody : List Char → Option (List Char × List Char)
  | '\'' :: '\'' :: '\'' :: '\'' :: '\'' :: rest => some (['\'', '\''], rest)
  | '\'' :: '\'' :: '\'' :: '\'' :: rest => some (['\''], rest)
  | '\'' :: '\'' :: '\'' :: rest => some ([], rest)
  | '\r' :: '\n' :: rest => push '\r' (push '\n' (multiLiteralBody rest))
  | c :: rest => if isControl c && c != '\n' then none else push c (multiLiteralBody rest)
  | [] => none

/-! ## Writing -/

/-- The length of the longest run of `q`, where `run` counts those just before. -/
def longestRun (q : Char) (run : Nat) : List Char → Nat
  | [] => 0
  | c :: cs => if c = q then max (run + 1) (longestRun q (run + 1) cs) else longestRun q 0 cs

/-- Whether a character can only be written as an escape. -/
def needsEscape (c : Char) : Bool := isControl c && c != '\n'

/-- The four upper-case hexadecimal digits of a small code point. -/
def hex4 (n : Nat) : List Char :=
  let ds := (Nat.toDigits 16 n).map Char.toUpper
  List.replicate (4 - ds.length) '0' ++ ds

/-- The escape of a character that needs one. -/
def escapeOf (c : Char) : List Char :=
  if c.toNat = 8 then ['\\', 'b']
  else if c = '\t' then ['\\', 't']
  else if c = '\n' then ['\\', 'n']
  else if c.toNat = 12 then ['\\', 'f']
  else if c = '\r' then ['\\', 'r']
  else if c = '"' then ['\\', '"']
  else if c = '\\' then ['\\', '\\']
  else '\\' :: 'u' :: hex4 c.toNat

/-- The inside of a basic string: at most `allowed` quotes in a row stand as they are, of which
`run` were just written, and line breaks do if there may be several lines. -/
def basicText (multi : Bool) (allowed : Nat) (run : Nat) : List Char → List Char
  | [] => []
  | c :: cs =>
    if c = '"' then
      if run < allowed then c :: basicText multi allowed (run + 1) cs
      else escapeOf c ++ basicText multi allowed 0 cs
    else if c = '\n' && multi then c :: basicText multi allowed 0 cs
    else if isControl c || c = '\t' || c = '\\' then escapeOf c ++ basicText multi allowed 0 cs
    else c :: basicText multi allowed 0 cs

/-- A line break, if there is one inside. -/
def leadingBreak (cs : List Char) : List Char := if '\n' ∈ cs then ['\n'] else []

/-- Three quotes. -/
def triple (q : Char) : List Char := [q, q, q]

/-- A text in the plainest form that can hold it: in double quotes if nothing in it needs an escape,
else in single quotes, else over several lines in either, else with escapes. -/
def writeString (cs : List Char) : List Char :=
  let coded := cs.any needsEscape
  let escapes := cs.any (· = '\\')
  let breaks := cs.any (· = '\n')
  let doubles := longestRun '"' 0 cs
  let singles := longestRun '\'' 0 cs
  if !coded && !escapes && doubles = 0 && !breaks then '"' :: basicText false 0 0 cs ++ ['"']
  else if !coded && singles = 0 && !breaks then '\'' :: cs ++ ['\'']
  else if !coded && !escapes && doubles ≤ 2 then
    triple '"' ++ leadingBreak cs ++ basicText true 2 0 cs ++ triple '"'
  else if !coded && singles ≤ 2 then triple '\'' ++ leadingBreak cs ++ cs ++ triple '\''
  else if breaks then triple '"' ++ leadingBreak cs ++ basicText true 2 0 cs ++ triple '"'
  else '"' :: basicText false 0 0 cs ++ ['"']

end ArgGrammar.Toml
