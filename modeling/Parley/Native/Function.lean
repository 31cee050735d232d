import Parley.Native.Basic

/-!
# Native functions

A native function declares the types it takes and returns and says how the values of a call become
a job, which whoever runs native code then carries out.

* `NativeFunction` : the declaration.
* `NativeFunction.ofData` : a function on native data.
-/

namespace Parley

/-- A function that serves calls: its types, and the job that a list of values stands for. -/
structure NativeFunction (ι : Type) where
  domain : List Ty
  range : Ty
  job : List Value → Except TypeMismatch ι

/-- A function on native data; values that do not read as data of its domain make no job. -/
def NativeFunction.ofData {ι : Type} (domain : List Ty) (range : Ty) (f : Ty.Tuple domain → ι) :
    NativeFunction ι :=
  ⟨domain, range, fun values => (Ty.decodeTuple domain values).map f⟩

end Parley
