import ArgGrammar.Json
import ArgGrammar.Number.Numeral
import ArgGrammar.Text.Escape

/-!
# Recorded values

- `Foreign`: a value that a reader from outside this library supplies.
- `Value`: what an argument can be recorded as.
- `Value.same`: equality of values as a program sees it.
- `Value.Form`, `Value.as?`: reading a value as one of the basic forms.
- `Value.text`, `Value.debug`, `Value.toJson`: its texts.
-/

namespace ArgGrammar

/-- A value supplied from outside. Two of them are equal when they are the same one, which `id`
tells. -/
structure Foreign where
  /-- The number that tells it apart from the others. -/
  id : Nat
  /-- What it holds. -/
  payload : String
  deriving DecidableEq, Repr

/-- A recorded value. -/
inductive Value where
  | bool (b : Bool)
  | int (z : Int)
  | float (x : Binary64)
  | text (s : String)
  | foreign (v : Foreign)
  deriving DecidableEq, Repr

namespace Value

/-- The name of the kind of value. -/
def typeName : Value → String
  | bool _ => "bool"
  | int _ => "integer"
  | float _ => "float"
  | text _ => "text"
  | foreign _ => "custom"

/-- Floats are shortest, with ties up, and never have an exponent. -/
def number : Layout where
  tie := .up
  positional _ := true
  wholeSuffix := ""
  infinities := ("-inf", "inf")
  nan := "NaN"

/-- The text of a truth value. -/
def boolText (b : Bool) : String := if b then "true" else "false"

/-- The text of a value. -/
def display : Value → String
  | bool b => boolText b
  | int z => toString z
  | float x => number.write x
  | text s => s
  | foreign _ => "<custom>"

/-- The text of a value together with its kind. -/
def debug : Value → String
  | bool b => "Bool(" ++ boolText b ++ ")"
  | int z => "Integer(" ++ toString z ++ ")"
  | float x => "Float(" ++ number.write x ++ ")"
  | text s => "Text(" ++ Text.escaped s ++ ")"
  | foreign _ => "Custom(..)"

/-- A value as JSON. -/
def toJson : Value → Json
  | bool b => .bool b
  | int z => .int z
  | float x => .float x
  | text s => .str s
  | foreign _ => .str "<custom>"

/-- Equality as a program sees it: floats by number, foreign values by identity. -/
def same : Value → Value → Bool
  | bool a, bool b => a == b
  | int a, int b => a == b
  | float a, float b => a.same b
  | text a, text b => a == b
  | foreign a, foreign b => a.id == b.id
  | _, _ => false

/-- The truth value, if it is one. -/
def asBool? : Value → Option Bool
  | bool b => some b
  | _ => none

/-- The integer, if it is one. -/
def asInt? : Value → Option Int
  | int z => some z
  | _ => none

/-- The float, or the one nearest to an integer. -/
def asFloat? : Value → Option Binary64
  | float x => some x
  | int z => some (.ofInt z)
  | _ => none

/-- The text, if it is one. -/
def asText? : Value → Option String
  | text s => some s
  | _ => none

/-- What a foreign value holds. -/
def payload? : Value → Option String
  | foreign v => some v.payload
  | _ => none

/-- The basic forms as which a value can be read. -/
inductive Form where
  | bool
  | int32
  | int64
  | float64
  | text
  deriving DecidableEq, Repr

/-- The name of a form. -/
def Form.name : Form → String
  | .bool => "bool"
  | .int32 => "i32"
  | .int64 => "i64"
  | .float64 => "f64"
  | .text => "string"

/-- The form with a name. -/
def Form.ofName? (s : String) : Option Form :=
  [Form.bool, .int32, .int64, .float64, .text].find? (·.name = s)

/-- Whether an integer fits in a width. -/
def fits (w : Width) (z : Int) : Bool := w.least ≤ z && z ≤ w.greatest

/-- A value read as a basic form: integers also as floats, and as narrow integers if they fit. -/
def as? (v : Value) : Form → Option Value
  | .bool => v.asBool?.map .bool
  | .int64 => v.asInt?.map .int
  | .int32 => (v.asInt?.filter (fits .word32)).map .int
  | .float64 => v.asFloat?.map .float
  | .text => v.asText?.map .text

end Value

end ArgGrammar
