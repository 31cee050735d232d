import Parley.Error

/-!
# Failures of scripted steps

* `Failure` : an error of an operation, or the bare mismatch of a cast.
-/

namespace Parley

/-- Why a scripted step fails. -/
inductive Failure where
  | error (e : Error)
  | mismatch (m : TypeMismatch)

namespace Failure

/-- An outcome whose failures are errors. -/
def ofError {α : Type} : Except Error α → Except Failure α :=
  Except.mapError error

/-- An outcome whose failures are mismatches. -/
def ofMismatch {α : Type} : Except TypeMismatch α → Except Failure α :=
  Except.mapError mismatch

end Failure

end Parley
