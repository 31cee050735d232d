import Parley.Endpoint
import Parley.Mapping.Basic

/-!
# Wrappers

A wrapper stands for a remote function: it knows the name, the encoding and the handlers that each
of its calls is given.

* `Wrapper` : a remote function.
* `Wrapper.make` : checks the handlers.
-/

namespace Parley

/-- A remote function. -/
structure Wrapper (κ : Type) where
  name : String
  encoding : FunctionEncoding
  defaults : List (Handler κ)

namespace Wrapper

variable {κ : Type}

/-- The wrapper of a function under a compiled mapping. -/
def make (name : String) (encoding : Except Error FunctionEncoding) (defaults : List (Handler κ)) :
    Except Error (Wrapper κ) := do
  let encoding ← encoding
  checkDefaults defaults
  return ⟨name, encoding, defaults⟩

/-- A wrapper as messages show it. -/
def text (w : Wrapper κ) : String :=
  "FunctionWrapper \x7b name: " ++ quoted w.name ++ " \x7d"

end Wrapper

end Parley
