import ArgGrammar.ParseError
import ArgGrammar.Text.Lowercase
import ArgGrammar.Tokenizer.Quoted
import ArgGrammar.Tokenizer.Words

/-!
# Ways to split a line into tokens

- `Tokenizer`: the four policies.
- `Tokenizer.tokenize`: the tokens of a line; when completing there is always one at the end.
- `Tokenizer.quote`: a value written so that the policy reads it back as one token.
- `Tokenizer.name`, `Tokenizer.ofName?`, `Tokenizer.parse`: the names of the policies.
-/

namespace ArgGrammar

/-- A policy for splitting a line. -/
inductive Tokenizer where
  /-- Quotes and escapes; an open quote runs to the end of the line. -/
  | lenientQuoted
  /-- Quotes and escapes; an open quote is an error unless completing. -/
  | strictQuoted
  /-- The whole line is one token. -/
  | raw
  /-- Words between white space. -/
  | spaceSplit
  deriving DecidableEq, Repr

namespace Tokenizer

/-- The tokens of a line as it stands. An open quote is tolerated if `lenient` says so. -/
def split (policy : Tokenizer) (lenient : Bool) (input : String) :
    Except ParseError (List Token) :=
  match policy with
  | raw => .ok (if input = "" then [] else [⟨input, 0, Text.size input⟩])
  | spaceSplit => .ok (Words.tokens input)
  | lenientQuoted => .ok (Quoted.tokens input).1
  | strictQuoted =>
    match (Quoted.tokens input).2 with
    | some pos =>
      if lenient then .ok (Quoted.tokens input).1
      else .error (.located .openQuote input pos)
    | none => .ok (Quoted.tokens input).1

/-- Whether completion needs an empty token behind the tokens of a line of `size` bytes. -/
def wantsTrailing (policy : Tokenizer) (size : Nat) (tokens : List Token) : Bool :=
  match tokens.getLast? with
  | none => true
  | some last => policy != raw && last.stop < size

/-- The tokens of a line. For completion an open quote is tolerated, and a line that is empty or
ends with white space gets an empty token at its end. -/
def tokenize (policy : Tokenizer) (input : String) (forCompletion : Bool) :
    Except ParseError (List Token) :=
  match policy.split forCompletion input with
  | .error e => .error e
  | .ok tokens =>
    let size := Text.size input
    if forCompletion && policy.wantsTrailing size tokens then .ok (tokens ++ [⟨"", size, size⟩])
    else .ok tokens

/-- Whether a character keeps a value from standing without quotes. -/
def needsQuotes (c : Char) : Bool := Text.isBlank c || c = '"' || c = '\'' || c = '\\'

/-- One character between double quotes. -/
def quotedChar (c : Char) : List Char := if c = '"' || c = '\\' then ['\\', c] else [c]

/-- A value between double quotes. -/
def doubleQuoted (cs : List Char) : List Char := '"' :: cs.flatMap quotedChar ++ ['"']

/-- A value written so that the policy reads it back as one token; a policy without quotes leaves it
as it is. -/
def quote (policy : Tokenizer) (value : String) : String :=
  match policy with
  | raw => value
  | spaceSplit => value
  | lenientQuoted | strictQuoted =>
    if value = "" || value.toList.any needsQuotes then String.ofList (doubleQuoted value.toList)
    else value

/-- The name of a policy. -/
def name : Tokenizer → String
  | lenientQuoted => "lenient-quoted"
  | strictQuoted => "strict-quoted"
  | raw => "raw"
  | spaceSplit => "space-split"

/-- The policy with a name. -/
def ofName? (s : String) : Option Tokenizer :=
  [lenientQuoted, strictQuoted, raw, spaceSplit].find? (·.name = s)

theorem ofName?_name (t : Tokenizer) : ofName? t.name = some t := by cases t <;> decide

/-- Reads a policy's name as a user writes it: in either case, and `lenient`, `strict` or `space`
for short. -/
def parse (s : String) : Except String Tokenizer :=
  let word := Text.lower s
  if word = "lenient-quoted" ∨ word = "lenient" then .ok lenientQuoted
  else if word = "strict-quoted" ∨ word = "strict" then .ok strictQuoted
  else if word = "raw" then .ok raw
  else if word = "space-split" ∨ word = "space" then .ok spaceSplit
  else
    .error ("Unknown tokenizer '" ++ word ++
      "'. Expected one of: lenient-quoted, strict-quoted, raw, space-split")

end Tokenizer

end ArgGrammar
