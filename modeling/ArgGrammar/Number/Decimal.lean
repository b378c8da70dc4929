import ArgGrammar.Number.Binary64

/-!
# Decimal texts of floating-point numbers

A decimal is an optional sign, digits with an optional point, and an optional exponent; `inf`,
`infinity` and `nan` are read in either case.

- `Decimal.Fault`: what can be wrong with a decimal.
- `Decimal.read`: the number nearest to a decimal, a tie going to the even significand.
-/

namespace ArgGrammar.Decimal

/-- What can be wrong with a decimal. -/
inductive Fault where
  /-- There is no character at all. -/
  | empty
  /-- The text does not have the form of a decimal. -/
  | malformed
  deriving DecidableEq, Repr

/-- The wording of a fault. -/
def Fault.message : Fault → String
  | .empty => "cannot parse float from empty string"
  | .malformed => "invalid float literal"

/-- Whether `c` is a decimal digit of ASCII. -/
def isDigit (c : Char) : Bool := 48 ≤ c.toNat && c.toNat ≤ 57

/-- The number that decimal digits denote. -/
def digitsValue (ds : List Char) : Nat := ds.foldl (fun n c => n * 10 + (c.toNat - 48)) 0

/-- The number nearest to `n · 10 ^ e`. Beyond 400 places on either side the answer is settled
without the power. -/
def nearest (negative : Bool) (n : Nat) (e : Int) : Binary64 :=
  let places : Int := (Nat.toDigits 10 n).length + e
  if n = 0 then .zero negative
  else if 400 < places then .infinity negative
  else if places < -400 then .zero negative
  else .ofRatio negative (n * Nat.pow 10 e.toNat) (Nat.pow 10 (-e).toNat)

/-- Reads the exponent behind its mark: an optional sign and at least one digit. -/
def readExponent : List Char → Option Int
  | '+' :: ds => if ds ≠ [] ∧ ds.all isDigit then some (digitsValue ds) else none
  | '-' :: ds => if ds ≠ [] ∧ ds.all isDigit then some (-(digitsValue ds : Int)) else none
  | ds => if ds ≠ [] ∧ ds.all isDigit then some (digitsValue ds) else none

/-- Splits the digits behind a point from what follows; without a point there are none. -/
def fractionDigits : List Char → List Char × List Char
  | '.' :: cs => (cs.takeWhile isDigit, cs.dropWhile isDigit)
  | cs => ([], cs)

/-- Reads the exponent part, which may be missing. -/
def exponentPart : List Char → Option Int
  | [] => some 0
  | c :: cs => if c = 'e' ∨ c = 'E' then readExponent cs else none

/-- Reads digits, point and exponent. -/
def readUnsigned (negative : Bool) (cs : List Char) : Option Binary64 :=
  let whole := cs.takeWhile isDigit
  let (fraction, rest) := fractionDigits (cs.dropWhile isDigit)
  if whole = [] ∧ fraction = [] then none
  else
    (exponentPart rest).map fun e =>
      nearest negative (digitsValue (whole ++ fraction)) (e - fraction.length)

/-- Reads the words for the infinities and for a number that is none. -/
def readWord (negative : Bool) (cs : List Char) : Option Binary64 :=
  let word := String.ofList (cs.map Char.toLower)
  if word = "inf" ∨ word = "infinity" then some (.infinity negative)
  else if word = "nan" then some (.nan negative)
  else none

/-- Reads a decimal without its sign. -/
def readMagnitude (negative : Bool) (cs : List Char) : Except Fault Binary64 :=
  match readUnsigned negative cs with
  | some x => .ok x
  | none =>
    match readWord negative cs with
    | some x => .ok x
    | none => .error .malformed

/-- The number nearest to the decimal `s`. -/
def read (s : String) : Except Fault Binary64 :=
  match s.toList with
  | [] => .error .empty
  | '-' :: cs => readMagnitude true cs
  | '+' :: cs => readMagnitude false cs
  | cs => readMagnitude false cs

end ArgGrammar.Decimal
