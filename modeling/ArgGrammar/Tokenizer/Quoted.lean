import ArgGrammar.Text.Blank
import ArgGrammar.Token

/-!
# Arguments with quotes and escapes

An argument is a run of plain characters, escapes and quoted parts that ends at white space outside
quotes. A backslash takes the next character as it is, inside quotes too; a backslash at the very
end stands for itself. A quoted part ends at the next unescaped quote of its kind.

- `Lexeme`: one argument with what follows it.
- `scan`: reads the argument at the head of a list of characters.
- `Quoted.tokens`: all arguments of a line, and the place of a quote that is left open.
-/

namespace ArgGrammar

/-- One argument as it was read. -/
structure Lexeme where
  /-- Its characters, with quotes and escapes resolved. -/
  value : List Char
  /-- The byte offset just past it. -/
  stop : Nat
  /-- The characters that follow it. -/
  rest : List Char
  /-- The byte offset of the quote that is left open at its end. -/
  opened : Option Nat
  deriving DecidableEq, Repr

/-- Puts a character in front of the value. -/
def Lexeme.push (l : Lexeme) (c : Char) : Lexeme := { l with value := c :: l.value }

theorem Lexeme.rest_push (l : Lexeme) (c : Char) : (l.push c).rest = l.rest := rfl

namespace Quoted

/-- Whether `c` opens a quoted part. -/
def isQuote (c : Char) : Bool := c = '\'' || c = '"'

/-- Reads the argument at the head of the characters, the first of which stands at byte `pos`.
`quote` is the quote that is open there, with its offset. -/
def scan (pos : Nat) (quote : Option (Char × Nat)) : List Char → Lexeme
  | [] => ⟨[], pos, [], quote.map Prod.snd⟩
  | ['\\'] => ⟨['\\'], pos + 1, [], quote.map Prod.snd⟩
  | '\\' :: c :: cs => (scan (pos + 1 + c.utf8Size) quote cs).push c
  | c :: cs =>
    match quote with
    | none =>
      if Text.isBlank c then ⟨[], pos, c :: cs, none⟩
      else if isQuote c then scan (pos + c.utf8Size) (some (c, pos)) cs
      else (scan (pos + c.utf8Size) none cs).push c
    | some (q, start) =>
      if c = q then scan (pos + c.utf8Size) none cs
      else (scan (pos + c.utf8Size) (some (q, start)) cs).push c

theorem length_rest_scan_le (pos : Nat) (quote : Option (Char × Nat)) (cs : List Char) :
    (scan pos quote cs).rest.length ≤ cs.length := by
  fun_induction scan pos quote cs <;> simp_all [Lexeme.rest_push] <;> omega

theorem length_rest_scan_lt (pos : Nat) {c : Char} (cs : List Char) (h : Text.isBlank c = false) :
    (scan pos none (c :: cs)).rest.length < (c :: cs).length := by
  unfold scan
  split
  · simp_all
  · simp
  · rename_i d cs' heq
    have := length_rest_scan_le (pos + 1 + d.utf8Size) none cs'
    simp_all [Lexeme.rest_push]; omega
  · rename_i c' cs' _ _ heq
    obtain ⟨rfl, rfl⟩ := List.cons.inj heq
    have h1 := length_rest_scan_le (pos + c.utf8Size) (some (c, pos)) cs
    have h2 := length_rest_scan_le (pos + c.utf8Size) none cs
    simp only [h, Bool.false_eq_true, if_false]
    split <;> simp [Lexeme.rest_push] <;> omega

/-- The arguments of the characters, the first of which stands at byte `pos`, and the offset of the
quote that is left open at the end. -/
def tokensFrom (pos : Nat) (cs : List Char) : List Token × Option Nat :=
  match cs with
  | [] => ([], none)
  | c :: cs =>
    if Text.isBlank c then tokensFrom (pos + c.utf8Size) cs
    else
      let l := scan pos none (c :: cs)
      let (ts, opened) := tokensFrom l.stop l.rest
      (⟨String.ofList l.value, pos, l.stop⟩ :: ts, l.opened.or opened)
termination_by cs.length
decreasing_by
  · simp
  · exact length_rest_scan_lt pos cs (by simp_all)

/-- The arguments of a line, and the offset of the quote that is left open at its end. -/
def tokens (input : String) : List Token × Option Nat := tokensFrom 0 input.toList

end Quoted

end ArgGrammar
