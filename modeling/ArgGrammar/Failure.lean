import ArgGrammar.Context
import ArgGrammar.FileTree
import ArgGrammar.ParseError

/-!
# Failures of the program

- `ConfigError`: what can be wrong with a configuration.
- `Failure`: what can end an operation, with `Failure.message` and `Failure.source?`.
-/

namespace ArgGrammar

/-- What can be wrong with a configuration. -/
inductive ConfigError where
  /-- There is no file at the path. -/
  | fileNotFound (path : String)
  /-- The text is no configuration. -/
  | invalidFormat (detail : String)
  /-- A field has a value that makes no sense. -/
  | invalidValue (field value : String)
  /-- Anything else. -/
  | generic (text : String)
  deriving DecidableEq, Repr

/-- The wording of a configuration error. -/
def ConfigError.message : ConfigError → String
  | .fileNotFound path => "Config file not found: " ++ path
  | .invalidFormat detail => "Invalid config format: " ++ detail
  | .invalidValue field value => "Invalid value '" ++ value ++ "' for field '" ++ field ++ "'"
  | .generic text => text

/-- A failure of the operating system. -/
inductive SystemError where
  /-- An operation on files failed. -/
  | file (fault : FileFault)
  /-- Another failure, known by its text. -/
  | other (text : String)
  deriving DecidableEq, Repr

/-- The wording of a failure of the operating system. -/
def SystemError.message : SystemError → String
  | .file fault => fault.message
  | .other text => text

/-- What can end an operation. -/
inductive Failure where
  /-- A line was turned down. -/
  | argument (e : ParseError)
  /-- A query on a context has no answer. -/
  | context (e : ContextError)
  /-- A configuration is not usable. -/
  | config (e : ConfigError)
  /-- The operating system failed. -/
  | system (e : SystemError)
  /-- Anything else. -/
  | generic (text : String)
  deriving DecidableEq, Repr

namespace Failure

/-- The wording of a failure. -/
def message : Failure → String
  | argument e => e.message
  | context e => "Context error: " ++ e.message
  | config e => "Configuration error: " ++ e.message
  | system e => "I/O error: " ++ e.message
  | generic text => text

/-- The text of the failure behind this one. -/
def source? : Failure → Option String
  | argument e => some e.message
  | system e => some e.message
  | _ => none

/-- A configuration could not be written as text. -/
def serialization (text : String) : Failure :=
  config (.generic ("Failed to serialize config: " ++ text))

/-- A value could not be written as JSON. -/
def json (text : String) : Failure := generic ("JSON error: " ++ text)

/-- The line editor failed. -/
def editor (text : String) : Failure := generic ("Line editor error: " ++ text)

end Failure

end ArgGrammar
