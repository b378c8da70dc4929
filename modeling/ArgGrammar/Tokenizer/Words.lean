import ArgGrammar.Text.Blank
import ArgGrammar.Text.Bytes
import ArgGrammar.Token

/-!
# Words between white space

- `Words.tokens`: the longest runs without white space, quotes and backslashes meaning nothing.
-/

namespace ArgGrammar.Words

/-- Whether `c` belongs to a word. -/
def isWordChar (c : Char) : Bool := !Text.isBlank c

theorem length_dropWhile_le (p : Char → Bool) (cs : List Char) :
    (cs.dropWhile p).length ≤ cs.length := by
  induction cs with
  | nil => simp
  | cons c cs ih =>
    rw [List.dropWhile_cons]
    split
    · simp only [List.length_cons]; omega
    · exact Nat.le_refl _

/-- The words of the characters, the first of which stands at byte `pos`. -/
def tokensFrom (pos : Nat) (cs : List Char) : List Token :=
  match cs with
  | [] => []
  | c :: cs =>
    if Text.isBlank c then tokensFrom (pos + c.utf8Size) cs
    else
      let word := c :: cs.takeWhile isWordChar
      let stop := pos + Text.byteSize word
      ⟨String.ofList word, pos, stop⟩ :: tokensFrom stop (cs.dropWhile isWordChar)
termination_by cs.length
decreasing_by
  · simp
  · have := length_dropWhile_le isWordChar cs
    simp; omega

/-- The words of a line. -/
def tokens (input : String) : List Token := tokensFrom 0 input.toList

end ArgGrammar.Words
