import ArgGrammar.Text.Lowercase

/-!
# Flags without a definition

- `UnknownFlag`: what happens to a flag that has no definition.
- `UnknownFlag.name`, `UnknownFlag.ofName?`, `UnknownFlag.parse`: the names of these policies.
-/

namespace ArgGrammar

/-- What happens to a flag that has no definition. -/
inductive UnknownFlag where
  /-- It is an error. -/
  | reject
  /-- It is skipped. -/
  | ignore
  /-- `true` is recorded under its name. -/
  | acceptNonvalue
  /-- The next token is recorded under its name. -/
  | acceptValue
  deriving DecidableEq, Repr

namespace UnknownFlag

/-- The name of a policy. -/
def name : UnknownFlag → String
  | reject => "error"
  | ignore => "ignore"
  | acceptNonvalue => "accept-nonvalue"
  | acceptValue => "accept-value"

/-- The policy with a name. -/
def ofName? (s : String) : Option UnknownFlag :=
  [reject, ignore, acceptNonvalue, acceptValue].find? (·.name = s)

theorem ofName?_name (p : UnknownFlag) : ofName? p.name = some p := by cases p <;> decide

/-- Reads a policy's name as a user writes it: in either case, and with underscores for hyphens. -/
def parse (s : String) : Except String UnknownFlag :=
  let word := String.ofList ((Text.lower s).toList.map fun c => if c = '_' then '-' else c)
  match ofName? word with
  | some p => .ok p
  | none => .error ("unknown flag policy '" ++ word ++ "'")

end UnknownFlag

end ArgGrammar
