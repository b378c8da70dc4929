import ArgGrammar.Number.Decimal
import ArgGrammar.Number.Numeral
import ArgGrammar.Toml.Basic

/-!
# TOML numbers, truth values and dates

A numeral may be well formed and still denote no number, because it has no digits behind `0x`, `0o`
or `0b`, or because its number is out of range. It is then kept as `Toml.illegible`.

- `Toml.decimal?`: decimal numerals, which are integers, or floats if they have a point or an
  exponent.
- `Toml.based?`: integers after `0x`, `0o` and `0b`.
- `Toml.moment?`: dates and times.
- `Toml.atom?`: any value without quotes and brackets.
-/

namespace ArgGrammar.Toml

/-! ## Underscores and zeros -/

/-- Whether each underscore stands between two digits; `before` tells whether one may stand here. -/
def groupedFrom (isDigit : Char → Bool) : Bool → List Char → Bool
  | _, [] => true
  | _, ['_'] => false
  | before, '_' :: d :: cs => before && isDigit d && groupedFrom isDigit true cs
  | _, c :: cs => groupedFrom isDigit (isDigit c) cs

/-- Whether each underscore stands between two digits, where the first character, which may be a
sign, counts as one. -/
def grouped (isDigit : Char → Bool) : List Char → Bool
  | [] => true
  | c :: cs => c != '_' && groupedFrom isDigit true cs

/-- A numeral without its underscores. -/
def ungroup (cs : List Char) : List Char := cs.filter (· != '_')

/-- Whether characters have no zero in front of others. -/
def noLeadingZero : List Char → Bool
  | '0' :: _ :: _ => false
  | _ => true

/-- Whether `c` is a digit of a base. -/
def isDigitOf (base : Nat) (c : Char) : Bool := (Numeral.digit? base c).isSome

/-! ## Integers -/

/-- The value of a numeral for an integer, which has room in 128 bits, with a sign or without. -/
def ofInteger (text : List Char) (z : Int) : Toml :=
  if -(Nat.pow 2 127 : Nat) ≤ z ∧ z < (Nat.pow 2 128 : Nat) then .int z
  else .illegible (String.ofList text)

/-- The value of a numeral of a base, behind its mark. -/
def based? (base : Nat) (cs : List Char) : Option Toml :=
  let ds := ungroup cs
  if ds.all (isDigitOf base) && grouped (isDigitOf base) cs then
    if ds.isEmpty then some (.illegible (String.ofList cs))
    else
      some (ofInteger cs
        (ds.foldl (fun n c => n * base + (Numeral.digit? base c).getD 0) (0 : Nat)))
  else none

/-- The value of a decimal numeral for an integer: its sign and what follows. With underscores it
may have other characters too, as long as digits of base sixteen stand around the underscores. -/
def integer? (sign body : List Char) : Option Toml :=
  let ds := ungroup body
  let negative := sign = ['-']
  if noLeadingZero body && grouped (isDigitOf 16) (sign ++ body) then
    if ds.all Decimal.isDigit then
      let n : Int := Decimal.digitsValue ds
      some (ofInteger (sign ++ body) (if negative then -n else n))
    else some (.illegible (String.ofList (sign ++ body)))
  else none

/-! ## Floats -/

/-- What follows digits and underscores, of which at least one is a digit; `zeros` tells whether a
zero may stand in front of other digits. -/
def dropDigits? (zeros : Bool) (cs : List Char) : Option (List Char) :=
  let isPart := fun c => Decimal.isDigit c || c = '_'
  let count := (cs.takeWhile isPart).countP Decimal.isDigit
  if count = 0 || (!zeros && 1 < count && cs.head? = some '0') then none
  else some (cs.dropWhile isPart)

/-- What follows a fraction, if there is one. -/
def dropFraction? : List Char → Option (List Char)
  | '.' :: cs => dropDigits? true cs
  | cs => some cs

/-- What follows an exponent, if there is one. -/
def dropExponent? : List Char → Option (List Char)
  | [] => some []
  | c :: cs =>
    if c = 'e' ∨ c = 'E' then
      match cs with
      | '+' :: ds => dropDigits? true ds
      | '-' :: ds => dropDigits? true ds
      | ds => dropDigits? true ds
    else some (c :: cs)

/-- Whether characters are digits, a fraction and an exponent. -/
def isFloat (cs : List Char) : Bool :=
  (((dropDigits? false cs).bind dropFraction?).bind dropExponent?) = some []

/-- The value of a decimal numeral for a float: its sign and what follows. -/
def float? (sign body : List Char) : Option Toml :=
  if isFloat body && grouped Decimal.isDigit (sign ++ body) then
    (Decimal.readUnsigned (sign = ['-']) (ungroup body)).map fun x =>
      if x.isInfinite then .illegible (String.ofList (sign ++ body)) else .float x
  else none

/-! ## Dates and times -/

/-- Splits at the first character that satisfies `p`, which is left out. -/
def splitAt (p : Char → Bool) (cs : List Char) : List Char × Option (List Char) :=
  match cs.dropWhile (fun c => !p c) with
  | [] => (cs, none)
  | _ :: rest => (cs.takeWhile fun c => !p c, some rest)

/-- The number that exactly `n` digits denote. -/
def fixed? (n : Nat) (cs : List Char) : Option Nat :=
  if cs.length = n ∧ cs.all Decimal.isDigit then some (Decimal.digitsValue cs) else none

/-- The number of days of a month. -/
def daysIn (year month : Nat) : Nat :=
  if month = 2 then
    if year % 4 = 0 ∧ (year % 100 ≠ 0 ∨ year % 400 = 0) then 29 else 28
  else if month = 4 ∨ month = 6 ∨ month = 9 ∨ month = 11 then 30
  else 31

/-- Whether characters are a date: year, month and day. -/
def isDate (cs : List Char) : Bool :=
  match fixed? 4 (cs.take 4), fixed? 2 ((cs.drop 5).take 2), fixed? 2 (cs.drop 8) with
  | some y, some m, some d =>
    cs[4]? = some '-' && cs[7]? = some '-' && 1 ≤ m && m ≤ 12 && 1 ≤ d && d ≤ daysIn y m
  | _, _, _ => false

/-- Whether characters are an hour and a minute. -/
def isHourMinute (cs : List Char) : Bool :=
  match fixed? 2 (cs.take 2), fixed? 2 (cs.drop 3) with
  | some h, some m => cs[2]? = some ':' && h ≤ 23 && m ≤ 59
  | _, _ => false

/-- Whether characters are a time of day; the second and a fraction of it may be left out. -/
def isTime (cs : List Char) : Bool :=
  let (front, fraction) := splitAt (· = '.') cs
  let fractionOk :=
    match fraction with
    | none => true
    | some ds => !ds.isEmpty && ds.all Decimal.isDigit
  let secondOk :=
    match fixed? 2 (front.drop 6) with
    | some s => front[5]? = some ':' && s ≤ 60 && fractionOk
    | none => front.length = 5 && fraction.isNone
  isHourMinute (front.take 5) && secondOk

/-- Whether characters are a time of day with an optional offset. -/
def isOffsetTime (cs : List Char) : Bool :=
  match cs.reverse with
  | 'Z' :: rest => isTime rest.reverse
  | 'z' :: rest => isTime rest.reverse
  | _ =>
    let (time, offset) := splitAt (fun c => c = '+' || c = '-') cs
    match offset with
    | none => isTime time
    | some offset => isTime time && isHourMinute offset

/-- Reads a date, a time of day, or both. -/
def moment? (cs : List Char) : Option String :=
  let both :=
    match cs[10]? with
    | some c => (c = 'T' || c = 't' || c = ' ') && isDate (cs.take 10) && isOffsetTime (cs.drop 11)
    | none => false
  if both || isDate cs || isTime cs then some (String.ofList cs) else none

/-! ## All of them -/

/-- Whether `c` makes a numeral a float. -/
def marksFloat (c : Char) : Bool := c = '.' || c = 'e' || c = 'E'

/-- The value of a decimal numeral: its sign and what follows. What comes behind its first digits
tells what it is. -/
def decimal? (sign body : List Char) : Option Toml :=
  match body.dropWhile Decimal.isDigit with
  | [] => if body.isEmpty then none else integer? sign body
  | c :: rest =>
    if c = '-' || c = ':' then (moment? (sign ++ body)).map .moment
    else if (c :: rest).any marksFloat then float? sign body
    else if c = '_' then integer? sign body
    else none

/-- The value of a numeral: its sign and what follows. -/
def numeral? (sign body : List Char) : Option Toml :=
  if body = ['i', 'n', 'f'] then some (.float (.infinity (sign = ['-'])))
  else if body = ['n', 'a', 'n'] then some (.float (.nan (sign = ['-'])))
  else decimal? sign body

/-- Reads a value without quotes and brackets. -/
def atom? : List Char → Option Toml
  | '0' :: 'x' :: cs => based? 16 cs
  | '0' :: 'o' :: cs => based? 8 cs
  | '0' :: 'b' :: cs => based? 2 cs
  | '+' :: cs => numeral? ['+'] cs
  | '-' :: cs => numeral? ['-'] cs
  | cs =>
    if cs = ['t', 'r', 'u', 'e'] then some (.bool true)
    else if cs = ['f', 'a', 'l', 's', 'e'] then some (.bool false)
    else numeral? [] cs

end ArgGrammar.Toml
