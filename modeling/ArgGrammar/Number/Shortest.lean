import ArgGrammar.Number.Binary64

/-!
# The fewest digits that read back

- `Tie`: which of two equally near digit strings is taken.
- `Shortest.digits`: the shortest decimal that rounds to a number, and of those the nearest.
- `Layout`: the decisions of a format on how such digits are written.
- `Layout.write`: a number as text.
-/

namespace ArgGrammar

/-- Which of two equally near candidates is taken. -/
inductive Tie where
  | up
  | toEven
  deriving DecidableEq, Repr

namespace Shortest

/-- The reals that round to `m · 2 ^ q`, as numerators over one denominator: the low end, the number
and the high end. The gap below a power of two is half as wide as the one above. -/
structure Interval where
  /-- Numerator of the low end. -/
  low : Nat
  /-- Numerator of the number itself. -/
  value : Nat
  /-- Numerator of the high end. -/
  high : Nat
  /-- The common denominator. -/
  den : Nat
  /-- Whether the ends round to the number as well. -/
  closed : Bool

/-- The interval of `m · 2 ^ q`. -/
def interval (m : Nat) (q : Int) : Interval :=
  let unit := Nat.pow 2 q.toNat
  let below := if m = Nat.pow 2 52 ∧ -1074 < q then 1 else 2
  { low := (4 * m - below) * unit
    value := 4 * m * unit
    high := (4 * m + 2) * unit
    den := 4 * Nat.pow 2 (-q).toNat
    closed := m % 2 = 0 }

/-- The numbers `k · 10 ^ j` as numerator and denominator. -/
def gridPoint (k : Nat) (j : Int) : Nat × Nat := (k * Nat.pow 10 j.toNat, Nat.pow 10 (-j).toNat)

/-- Whether `k · 10 ^ j` lies in the interval. -/
def Interval.holds (i : Interval) (k : Nat) (j : Int) : Bool :=
  let (num, den) := gridPoint k j
  let x := num * i.den
  if i.closed then i.low * den ≤ x && x ≤ i.high * den
  else i.low * den < x && x < i.high * den

/-- The largest `k` with `k · 10 ^ j` not above the number. -/
def Interval.floor (i : Interval) (j : Int) : Nat :=
  i.value * Nat.pow 10 (-j).toNat / (i.den * Nat.pow 10 j.toNat)

/-- The point of the grid `10 ^ j` in the interval that is nearest to the number, if there is one.
-/
def Interval.pick (i : Interval) (tie : Tie) (j : Int) : Option Nat :=
  let k := i.floor j
  let downHits := i.holds k j && 0 < k
  let upHits := i.holds (k + 1) j
  if downHits && upHits then
    let (num, den) := gridPoint (2 * k + 1) j
    let twice := 2 * i.value * den
    let middle := num * i.den
    if twice < middle then some k
    else if middle < twice then some (k + 1)
    else
      match tie with
      | .up => some (k + 1)
      | .toEven => some (k + k % 2)
  else if downHits then some k
  else if upHits then some (k + 1)
  else none

/-- Tries the grids `10 ^ j`, `10 ^ (j - 1)`, … for as many as the first argument says. -/
def Interval.search (i : Interval) (tie : Tie) : Nat → Int → Nat × Int
  | 0, j => (i.floor j, j)
  | n + 1, j =>
    match i.pick tie j with
    | some k => (k, j)
    | none => i.search tie n (j - 1)

/-- The exponent of the leading decimal digit of the number, or one more. -/
def Interval.magnitude (i : Interval) : Int :=
  (Nat.toDigits 10 i.value).length - (Nat.toDigits 10 i.den).length

/-- Moves the trailing zeros of `k` into the exponent; the first argument bounds their number. -/
def dropZeros : Nat → Nat → Int → Nat × Int
  | 0, k, j => (k, j)
  | n + 1, k, j => if k % 10 = 0 ∧ k ≠ 0 then dropZeros n (k / 10) (j + 1) else (k, j)

/-- Digits and exponent of the shortest decimal that rounds to `m · 2 ^ q`, for a positive `m`. -/
def digits (tie : Tie) (m : Nat) (q : Int) : List Char × Int :=
  let i := interval m q
  let (k, j) := i.search tie 20 (i.magnitude + 1)
  let (k, j) := dropZeros 20 k j
  (Nat.toDigits 10 k, j)

end Shortest

/-- The decisions of a format on how a number is written. -/
structure Layout where
  /-- Which of two equally near digit strings is taken. -/
  tie : Tie
  /-- Whether a number whose leading digit has this exponent is written without an exponent. -/
  positional : Int → Bool
  /-- What follows the digits of a whole number. -/
  wholeSuffix : String
  /-- The texts of the infinities; the first is for the negative one. -/
  infinities : String × String
  /-- The text of a NaN. -/
  nan : String

namespace Layout

/-- Writes digits times a power of ten without an exponent. -/
def writePositional (l : Layout) (ds : List Char) (j : Int) : String :=
  if 0 ≤ j then String.ofList (ds ++ List.replicate j.toNat '0') ++ l.wholeSuffix
  else
    let places := (-j).toNat
    if places < ds.length then
      String.ofList (ds.take (ds.length - places) ++ '.' :: ds.drop (ds.length - places))
    else String.ofList (['0', '.'] ++ List.replicate (places - ds.length) '0' ++ ds)

/-- Writes digits times a power of ten with one digit before the point and a signed exponent. -/
def writeExponent (ds : List Char) (e : Int) : String :=
  let significand :=
    match ds with
    | [] => []
    | [d] => [d]
    | d :: rest => d :: '.' :: rest
  String.ofList significand ++ (if e < 0 then "e-" else "e+") ++ toString e.natAbs

/-- Writes a finite magnitude. -/
def writeMagnitude (l : Layout) (x : Binary64) : String :=
  if x.isZero then "0" ++ l.wholeSuffix
  else
    let (m, q) := x.parts
    let (ds, j) := Shortest.digits l.tie m q
    let e := j + ds.length - 1
    if l.positional e then l.writePositional ds j else writeExponent ds e

/-- The text of a number. -/
def write (l : Layout) (x : Binary64) : String :=
  if x.isNaN then l.nan
  else if x.isInfinite then (if x.negative then l.infinities.1 else l.infinities.2)
  else (if x.negative then "-" else "") ++ l.writeMagnitude x

end Layout

end ArgGrammar
