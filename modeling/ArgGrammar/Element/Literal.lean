import ArgGrammar.Element.Basic
import ArgGrammar.Text.Lowercase

/-!
# Fixed words

- `Element.literal`: words that have to stand in the line, in either case.
-/

namespace ArgGrammar.Literal

/-- Reads the words one after another. -/
def parseWords : List String → State → Outcome
  | [], s => .ok s
  | word :: words, s =>
    match s.cursor.next? with
    | none => .failed (s.cursor.errorAtEnd .notEnough) s
    | some (t, c) =>
      if Text.lower t.value = Text.lower word then parseWords words ⟨c, s.context⟩
      else .failed (c.errorHere (.wrongWord t.value word)) ⟨c, s.context⟩

/-- The word that the last token is the beginning of, if the tokens before it are the words before
it. -/
def completeWords : List String → Cursor → List String
  | [], _ => []
  | word :: words, c =>
    match c.next? with
    | none => []
    | some (t, c) =>
      let typed := Text.lower t.value
      let wanted := Text.lower word
      if c.hasNext then (if typed = wanted then completeWords words c else [])
      else if typed.toList.isPrefixOf wanted.toList then [word]
      else completeWords words c

end ArgGrammar.Literal

namespace ArgGrammar.Element

/-- Expects words in order, in either case, and records a value under a key. -/
def literal (key : String) (value : Value) (words : List String) : Element :=
  ofTrial (some key)
    (fun s => (Literal.parseWords words s).andThen fun s => .ok (s.put key value))
    (fun s => Literal.completeWords words s.cursor)

end ArgGrammar.Element
