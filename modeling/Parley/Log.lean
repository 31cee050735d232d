/-!
# Log records

* `LogRecord` : a level, a message and named fields.
-/

namespace Parley

/-- How serious a record is. -/
inductive LogLevel where
  | trace
  | debug
  | warn
  | error
  deriving DecidableEq, Repr

/-- The value of a field. -/
inductive LogValue where
  | number (n : Nat)
  | flag (b : Bool)
  | text (s : String)
  deriving DecidableEq, Repr

/-- One record of a log. -/
structure LogRecord where
  level : LogLevel
  message : String
  fields : List (String × LogValue)
  deriving DecidableEq, Repr

end Parley
