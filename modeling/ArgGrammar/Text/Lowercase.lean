import ArgGrammar.Text.CaseTable

/-!
# Lower case

The full Unicode lower case of a text: characters may grow (`İ` becomes `i` and a dot above), and a
capital sigma that ends a word becomes `ς`.

- `lowerChar`: the lower case of one character, whatever stands around it.
- `lower`: the lower case of a text.
-/

namespace ArgGrammar.Text

/-- The lower case of `c` alone. -/
def lowerChar (c : Char) : List Char :=
  if c = 'İ' then ['i', Char.ofNat 0x307]
  else
    match caseRuns.find? (fun r => c.toNat ≤ r.last) with
    | some r =>
      if r.first ≤ c.toNat ∧ (c.toNat - r.first) % r.step = 0 then
        [Char.ofNat ((c.toNat : Int) + r.shift).toNat]
      else [c]
    | none => [c]

/-- Whether the first character that is not case-ignorable is cased. -/
def casedFirst (cs : List Char) : Bool :=
  match cs.dropWhile (inRanges caseIgnorableRanges) with
  | [] => false
  | c :: _ => inRanges casedRanges c

/-- The lower case of `cs`, where `before` holds what stands before it, last character first. -/
def lowerAfter (before : List Char) : List Char → List Char
  | [] => []
  | c :: cs =>
    (if c = 'Σ' then [if casedFirst before && !casedFirst cs then 'ς' else 'σ'] else lowerChar c)
      ++ lowerAfter (c :: before) cs

/-- The lower case of a text. -/
def lower (s : String) : String := String.ofList (lowerAfter [] s.toList)

end ArgGrammar.Text
