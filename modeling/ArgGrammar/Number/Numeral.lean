/-!
# Integer numerals

A numeral is an optional sign and digits. It is decimal, or hexadecimal after `0x`, or binary after
`0b`; the sign stands behind that mark. Digits are taken from left to right, so the first thing that
goes wrong is what is reported.

- `Width`: the signed words that a numeral may have to fit in.
- `Numeral.Fault`: what can be wrong with a numeral.
- `Numeral.read`: the integer that a numeral denotes, if it fits.
-/

namespace ArgGrammar

/-- The signed words of 32 and of 64 bits. -/
inductive Width where
  | word32
  | word64
  deriving DecidableEq, Repr

/-- The least integer of the width. -/
def Width.least : Width → Int
  | .word32 => -2147483648
  | .word64 => -9223372036854775808

/-- The greatest integer of the width. -/
def Width.greatest : Width → Int
  | .word32 => 2147483647
  | .word64 => 9223372036854775807

namespace Numeral

/-- What can be wrong with a numeral. -/
inductive Fault where
  /-- There is no character at all. -/
  | empty
  /-- A character is no digit of the base, or a sign stands alone. -/
  | badDigit
  /-- The number is above the greatest of its width. -/
  | tooLarge
  /-- The number is below the least of its width. -/
  | tooSmall
  deriving DecidableEq, Repr

/-- The wording of a fault. -/
def Fault.message : Fault → String
  | .empty => "cannot parse integer from empty string"
  | .badDigit => "invalid digit found in string"
  | .tooLarge => "number too large to fit in target type"
  | .tooSmall => "number too small to fit in target type"

/-- The value of `c` as a digit, letters of either case standing for ten and more. -/
def digit? (base : Nat) (c : Char) : Option Nat :=
  let n := c.toNat
  let value :=
    if 48 ≤ n ∧ n ≤ 57 then some (n - 48)
    else if 97 ≤ n ∧ n ≤ 122 then some (n - 87)
    else if 65 ≤ n ∧ n ≤ 90 then some (n - 55)
    else none
  value.filter (· < base)

/-- Appends the digits of a numeral to the number `acc` read so far, away from zero on the side of
the sign. -/
def accumulate (w : Width) (base : Nat) (negative : Bool) : Int → List Char → Except Fault Int
  | acc, [] => .ok acc
  | acc, c :: cs =>
    match digit? base c with
    | none => .error .badDigit
    | some d =>
      let next := if negative then acc * base - d else acc * base + d
      if w.least ≤ next ∧ next ≤ w.greatest then accumulate w base negative next cs
      else .error (if negative then .tooSmall else .tooLarge)

/-- Reads an optional sign and digits of a base. -/
def readBase (w : Width) (base : Nat) : List Char → Except Fault Int
  | [] => .error .empty
  | ['+'] => .error .badDigit
  | ['-'] => .error .badDigit
  | '+' :: cs => accumulate w base false 0 cs
  | '-' :: cs => accumulate w base true 0 cs
  | cs => accumulate w base false 0 cs

/-- Reads a numeral; `0x` announces base sixteen and `0b` base two. -/
def readChars (w : Width) : List Char → Except Fault Int
  | '0' :: 'x' :: cs => readBase w 16 cs
  | '0' :: 'b' :: cs => readBase w 2 cs
  | cs => readBase w 10 cs

/-- The integer that the numeral `s` denotes, if it fits in the width. -/
def read (w : Width) (s : String) : Except Fault Int := readChars w s.toList

end Numeral

end ArgGrammar
