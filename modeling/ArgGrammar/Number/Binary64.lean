/-!
# Binary floating-point numbers of 64 bits

A number is kept as its bits, so that the sign and the payload of a NaN survive. All arithmetic is
exact arithmetic on natural numbers.

- `Binary64`: the bits, with `negative`, `isNaN`, `isInfinite` and `parts` (a significand and a
  power of two).
- `Binary64.same`: numeric equality: a NaN differs from everything, the two zeros are equal.
- `Binary64.ofRatio`: the nearest number to a quotient, a tie going to the even significand.
- `Binary64.ofInt`: the nearest number to an integer.
-/

namespace ArgGrammar

/-- A binary floating-point number of 64 bits. -/
structure Binary64 where
  /-- Sign, exponent and fraction, from the highest bit down. -/
  bits : UInt64
  deriving DecidableEq, Repr

namespace Binary64

/-- The number whose bits are those of `n`. -/
def ofNat (n : Nat) : Binary64 := ⟨UInt64.ofNat n⟩

/-- Whether the sign bit is set. -/
def negative (x : Binary64) : Bool := Nat.pow 2 63 ≤ x.bits.toNat

/-- The exponent field. -/
def exponentField (x : Binary64) : Nat := x.bits.toNat / Nat.pow 2 52 % 2048

/-- The fraction field. -/
def fractionField (x : Binary64) : Nat := x.bits.toNat % Nat.pow 2 52

/-- Whether `x` is not a number. -/
def isNaN (x : Binary64) : Bool := x.exponentField = 2047 ∧ x.fractionField ≠ 0

/-- Whether `x` is one of the infinities. -/
def isInfinite (x : Binary64) : Bool := x.exponentField = 2047 ∧ x.fractionField = 0

/-- Whether `x` is one of the zeros. -/
def isZero (x : Binary64) : Bool := x.exponentField = 0 ∧ x.fractionField = 0

/-- The significand `m` and the exponent `q` of a finite number: its magnitude is `m · 2 ^ q`. -/
def parts (x : Binary64) : Nat × Int :=
  if x.exponentField = 0 then (x.fractionField, -1074)
  else (Nat.pow 2 52 + x.fractionField, (x.exponentField : Int) - 1075)

/-- Numeric equality. -/
def same (x y : Binary64) : Bool :=
  !x.isNaN && !y.isNaN && (x.bits == y.bits || (x.isZero && y.isZero))

/-- Sets the sign of the number with the given lower 63 bits. -/
def withSign (negative : Bool) (magnitude : Nat) : Binary64 :=
  ofNat (if negative then Nat.pow 2 63 + magnitude else magnitude)

/-- An infinity. -/
def infinity (negative : Bool) : Binary64 := withSign negative (2047 * Nat.pow 2 52)

/-- A quiet NaN. -/
def nan (negative : Bool) : Binary64 := withSign negative (2047 * Nat.pow 2 52 + Nat.pow 2 51)

/-- A zero. -/
def zero (negative : Bool) : Binary64 := withSign negative 0

/-- The integer nearest to `num / den`, a tie going to the even one. -/
def roundDiv (num den : Nat) : Nat :=
  let down := num / den
  let rest := 2 * (num % den)
  if rest < den then down
  else if rest = den then down + down % 2
  else down + 1

/-- The integer nearest to `num / den / 2 ^ q`. -/
def scaled (num den : Nat) (q : Int) : Nat :=
  roundDiv (num * Nat.pow 2 (-q).toNat) (den * Nat.pow 2 q.toNat)

/-- The least exponent, from the lowest one up, at which `num / den` keeps to 53 bits. -/
def exponentFor (num den : Nat) : Int :=
  let guess : Int := (num.log2 : Int) - den.log2 - 53
  let fits (q : Int) : Bool := num * Nat.pow 2 (-q).toNat < den * Nat.pow 2 q.toNat * Nat.pow 2 53
  let q := if fits guess then guess else if fits (guess + 1) then guess + 1 else guess + 2
  max q (-1074)

/-- The number nearest to `num / den`, a tie going to the even significand; a quotient beyond the
largest finite number is infinite. -/
def ofRatio (negative : Bool) (num den : Nat) : Binary64 :=
  if num = 0 then zero negative
  else
    let q := exponentFor num den
    let magnitude := (q + 1074).toNat * Nat.pow 2 52 + scaled num den q
    withSign negative (min magnitude (2047 * Nat.pow 2 52))

/-- The number nearest to an integer. -/
def ofInt (z : Int) : Binary64 := ofRatio (z < 0) z.natAbs 1

end Binary64

end ArgGrammar
