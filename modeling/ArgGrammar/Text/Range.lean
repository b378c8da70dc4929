/-!
# Sorted ranges of code points

- `Range`: an inclusive range of code points.
- `inRanges`: whether a character lies in one of a list of sorted, disjoint ranges.
-/

namespace ArgGrammar.Text

/-- An inclusive range of code points, first and last. -/
abbrev Range := Nat × Nat

/-- Whether `c` lies in one of the sorted ranges `rs`; the first range that ends at or after `c`
decides. -/
def inRanges (rs : List Range) (c : Char) : Bool :=
  match rs.find? (fun r => c.toNat ≤ r.2) with
  | some r => r.1 ≤ c.toNat
  | none => false

end ArgGrammar.Text
