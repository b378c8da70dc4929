import ArgGrammar.Number.Numeral
import ArgGrammar.Number.Decimal
import ArgGrammar.Text.Lines

/-!
# What can be wrong with a command line

- `ErrorKind`: the categories of failure, with their names.
- `Complaint`: each reason for which a line is turned down, with what the wording needs.
- `Complaint.kind`, `Complaint.message`, `Complaint.cause?`: its category, its wording and the text
  of the failure behind it.
-/

namespace ArgGrammar

/-- The category of a failure. -/
inductive ErrorKind where
  /-- A quote is left open where that is not allowed. -/
  | tokenize
  /-- A token was asked for behind the last one. -/
  | noMoreArguments
  /-- A token was asked for before the first one. -/
  | noPreviousArgument
  /-- A token does not convert to the value that is wanted. -/
  | typeConversion
  /-- A token is none of the words that are allowed. -/
  | unknownChoice
  /-- A flag has no definition. -/
  | unknownFlag
  /-- Input ended where an argument is required. -/
  | missingRequiredArgument
  /-- Input is left over. -/
  | tooManyArguments
  /-- A value is not allowed where it stands. -/
  | invalidValue
  deriving DecidableEq, Repr

namespace ErrorKind

/-- The name of a category. -/
def name : ErrorKind → String
  | tokenize => "tokenize"
  | noMoreArguments => "no_more_arguments"
  | noPreviousArgument => "no_previous_argument"
  | typeConversion => "type_conversion"
  | unknownChoice => "unknown_choice"
  | unknownFlag => "unknown_flag"
  | missingRequiredArgument => "missing_required_argument"
  | tooManyArguments => "too_many_arguments"
  | invalidValue => "invalid_value"

/-- Every category. -/
def all : List ErrorKind :=
  [tokenize, noMoreArguments, noPreviousArgument, typeConversion, unknownChoice, unknownFlag,
   missingRequiredArgument, tooManyArguments, invalidValue]

/-- The category with a name. -/
def ofName? (s : String) : Option ErrorKind := all.find? (·.name = s)

end ErrorKind

/-- A reason for which a line is turned down. -/
inductive Complaint where
  /-- A quote is left open. -/
  | openQuote
  /-- A token was asked for behind the last one. -/
  | noMore
  /-- A token was asked for before the first one. -/
  | noPrevious
  /-- Input ended where an argument is required. -/
  | notEnough
  /-- An alternation has no alternatives. -/
  | noAlternatives
  /-- Input is left over. -/
  | tooMany
  /-- A token is no integer of the width. -/
  | notInteger (width : Width) (input : String) (fault : Numeral.Fault)
  /-- A token is no floating-point number. -/
  | notDouble (input : String) (fault : Decimal.Fault)
  /-- A token is none of the choices. -/
  | notAChoice (choices : List String)
  /-- A token is not the word that has to stand there. -/
  | wrongWord (found expected : String)
  /-- A long flag has no definition. -/
  | unknownLong (name : String)
  /-- A short flag has no definition. -/
  | unknownShort (name : Char)
  /-- A key that may have one value got several. -/
  | repeated (key : String)
  /-- A failure reported by a reader from outside this library. -/
  | other (kind : ErrorKind) (message : String) (cause : Option String)
  deriving DecidableEq, Repr

namespace Complaint

/-- The category of a complaint. -/
def kind : Complaint → ErrorKind
  | openQuote => .tokenize
  | noMore => .noMoreArguments
  | noPrevious => .noPreviousArgument
  | notEnough => .missingRequiredArgument
  | noAlternatives => .missingRequiredArgument
  | tooMany => .tooManyArguments
  | notInteger .. => .typeConversion
  | notDouble .. => .typeConversion
  | notAChoice _ => .unknownChoice
  | wrongWord .. => .unknownChoice
  | unknownLong _ => .unknownFlag
  | unknownShort _ => .unknownFlag
  | repeated _ => .invalidValue
  | other k _ _ => k

/-- The wording of a complaint. -/
def message : Complaint → String
  | openQuote => "Unterminated quoted string"
  | noMore => "Not enough arguments"
  | noPrevious => "No previous argument"
  | notEnough => "Not enough arguments"
  | noAlternatives => "No alternatives to parse"
  | tooMany => "Too many arguments"
  | notInteger .word32 input _ => "Expected an integer, but input '" ++ input ++ "' was not"
  | notInteger .word64 input _ => "Expected a long, but input '" ++ input ++ "' was not"
  | notDouble input _ => "Expected input " ++ input ++ " to be a double, but was not"
  | notAChoice choices =>
    "Argument was not a valid choice. Valid choices: [" ++ Text.joinWith ", " choices ++ "]"
  | wrongWord found expected =>
    "Argument " ++ found ++ " did not match expected next argument " ++ expected
  | unknownLong name => "Unknown long flag " ++ name ++ " specified"
  | unknownShort name => "Unknown short flag " ++ String.singleton name ++ " specified"
  | repeated key => "Argument " ++ key ++ " may have only one value!"
  | other _ text _ => text

/-- The text of the failure behind a complaint. -/
def cause? : Complaint → Option String
  | notInteger _ _ fault => some fault.message
  | notDouble _ fault => some fault.message
  | other _ _ cause => cause
  | _ => none

end Complaint

end ArgGrammar
