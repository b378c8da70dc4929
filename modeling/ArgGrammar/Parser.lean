import ArgGrammar.Element.Combine
import ArgGrammar.Element.Flags
import ArgGrammar.Element.Literal
import ArgGrammar.Tokenizer

/-!
# Parsing and completing command lines

- `Parser`: a grammar together with a way to split lines.
- `Parser.parse`: what a line records.
- `Parser.complete`: the texts that the last token of a line may become.
- `Parser.completeLine`: the same for an editor, with the place of the token that is replaced.
-/

namespace ArgGrammar

/-- A grammar together with a way to split lines. -/
structure Parser where
  /-- The grammar. -/
  element : Element
  /-- The way to split lines. -/
  tokenizer : Tokenizer

namespace Parser

/-- Runs an element over tokens; all of them have to be read. -/
def run (e : Element) (raw : String) (tokens : List Token) : Except ParseError Context :=
  match e.parse ⟨.ofTokens raw tokens, .empty⟩ with
  | .failed err _ => .error err
  | .ok s =>
    match s.cursor.next? with
    | none => .ok s.context
    | some (_, c) => .error (c.errorHere .tooMany)

/-- What a line records. -/
def parse (p : Parser) (input : String) : Except ParseError Context :=
  match p.tokenizer.tokenize input false with
  | .error e => .error e
  | .ok tokens => run p.element input tokens

/-- The texts that the last token of a line may become; white space at the end means that a new
token is to be completed. -/
def complete (p : Parser) (input : String) : List String :=
  match p.tokenizer.tokenize input true with
  | .error _ => []
  | .ok tokens => distinct (p.element.complete ⟨.ofTokens input tokens, .empty⟩)

/-- The byte offset at which the token to complete starts. -/
def completionStart (p : Parser) (before : String) : Nat :=
  match p.tokenizer.tokenize before true with
  | .error _ => Text.size before
  | .ok tokens =>
    match tokens.getLast? with
    | some t => t.start
    | none => Text.size before

/-- The byte offset at which the token before the caret starts, and the texts to replace it with,
quoted as the line needs. A caret inside a character stands before it. -/
def completeLine (p : Parser) (line : String) (caret : Nat) : Nat × List String :=
  let before := Text.upTo caret line
  (p.completionStart before, (p.complete before).map p.tokenizer.quote)

end Parser

end ArgGrammar
