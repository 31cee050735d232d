import Parley.Error
import Parley.Native.Basic

/-!
# Handlers

A handler waits for one slot of a call. It reads the values it is given, which it may refuse, and
passes them on to its target.

* `Handler` : a slot, how values are read, and the target.
* `Handler.result`, `Handler.exception`, `Handler.either`, `Handler.error` : handlers on native
  data.
* `Handler.bare` : a handler that passes on any value.
* `Handler.checkEvent` : whether a handler may be registered under an event.
-/

namespace Parley

/-- Waits for an outcome on behalf of a target. -/
structure Handler (κ : Type) where
  slot : Slot
  readException : Value → Except TypeMismatch Value
  readResult : Value → Except TypeMismatch Value
  target : κ

namespace Handler

variable {κ : Type}

/-- A handler that passes on any value. -/
def bare (slot : Slot) (target : κ) : Handler κ :=
  ⟨slot, .ok, .ok, target⟩

/-- A handler of results that are data of a type. -/
def result (t : Ty) (target : κ) : Handler κ :=
  ⟨.result t, .ok, t.conform, target⟩

/-- A handler of exceptions that are data of a type. -/
def exception (t : Ty) (target : κ) : Handler κ :=
  ⟨.exception t, t.conform, .ok, target⟩

/-- A handler of exceptions that are data of one type and results that are data of another. -/
def either (e r : Ty) (target : κ) : Handler κ :=
  ⟨.either e r, e.conform, r.conform, target⟩

/-- A handler of errors. -/
def error (target : κ) : Handler κ :=
  bare .error target

/-- The event of a handler is the one of its slot. -/
def checkEvent (h : Handler κ) (event : String) : Except Error Unit :=
  if event ∈ eventNames then
    if event = h.slot.eventName then .ok () else .error (.wrongHandler event h.slot.eventName)
  else .error (.unknownEvent event)

end Handler

/-- What a target is given. -/
inductive Delivery where
  | value (v : Value)
  | either (exception result : Option Value)
  | reason (text : String)
  deriving Repr

end Parley
