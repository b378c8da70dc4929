import ArgGrammar.Tokenizer

/-!
# How quoted arguments are read

The equations of the lexer, one for each kind of character.

* `Quoted.scan_escape`, `Quoted.scan_plain`, `Quoted.scan_quoted`: one step inside an argument.
* `Quoted.tokensFrom_blank`, `Quoted.tokensFrom_argument`: one step between arguments.
* `Tokenizer.tokenize_of_closed`: a line without an open quote splits into its arguments.
-/

namespace ArgGrammar

namespace Quoted

/-! ## One argument -/

theorem scan_escape (pos : Nat) (quote : Option (Char × Nat)) (c : Char) (cs : List Char) :
    scan pos quote ('\\' :: c :: cs) = (scan (pos + 1 + c.utf8Size) quote cs).push c := by
  simp only [scan]

theorem scan_plain (pos : Nat) {c : Char} (cs : List Char) (h : c ≠ '\\') :
    scan pos none (c :: cs) =
      if Text.isBlank c then ⟨[], pos, c :: cs, none⟩
      else if isQuote c then scan (pos + c.utf8Size) (some (c, pos)) cs
      else (scan (pos + c.utf8Size) none cs).push c := by
  rw [scan.eq_def]
  split <;> simp_all

theorem scan_quoted (pos start : Nat) (q : Char) {c : Char} (cs : List Char) (h : c ≠ '\\') :
    scan pos (some (q, start)) (c :: cs) =
      if c = q then scan (pos + c.utf8Size) none cs
      else (scan (pos + c.utf8Size) (some (q, start)) cs).push c := by
  rw [scan.eq_def]
  split <;> simp_all

/-! ## All arguments -/

theorem tokensFrom_nil (pos : Nat) : tokensFrom pos [] = ([], none) := by
  rw [tokensFrom]

theorem tokensFrom_blank (pos : Nat) {c : Char} (cs : List Char) (h : Text.isBlank c = true) :
    tokensFrom pos (c :: cs) = tokensFrom (pos + c.utf8Size) cs := by
  rw [tokensFrom, if_pos h]

theorem tokensFrom_argument (pos : Nat) {c : Char} {cs : List Char} (h : Text.isBlank c = false)
    {l : Lexeme} (hl : scan pos none (c :: cs) = l) :
    tokensFrom pos (c :: cs) =
      (⟨String.ofList l.value, pos, l.stop⟩ :: (tokensFrom l.stop l.rest).1,
        l.opened.or (tokensFrom l.stop l.rest).2) := by
  rw [tokensFrom, if_neg (by simp [h])]
  simp only [hl]

end Quoted

namespace Tokenizer

/-- The policies with quotes. -/
def Quotes (policy : Tokenizer) : Prop := policy = .lenientQuoted ∨ policy = .strictQuoted

variable {policy : Tokenizer}

theorem tokenize_of_closed (h : policy.Quotes) {input : String} {ts : List Token}
    (hts : Quoted.tokens input = (ts, none)) : policy.tokenize input false = .ok ts := by
  rcases h with rfl | rfl <;> simp [tokenize, split, hts]

end Tokenizer

end ArgGrammar
