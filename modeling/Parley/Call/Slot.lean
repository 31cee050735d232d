import Parley.Ty

/-!
# Outcome slots

A call ends in a result, an exception or an error, and a handler waits for one of these outcomes or
for either of the first two. The slot of a handler names the types it expects.

* `Slot` : what a handler waits for.
* `Slot.eventName` : the event it is registered under.
-/

namespace Parley

/-- What a handler waits for, with the types of the values it is given. -/
inductive Slot where
  | result (type : Ty)
  | exception (type : Ty)
  | either (exception result : Ty)
  | error
  deriving Repr

namespace Slot

/-- The event a handler is registered under. -/
def eventName : Slot → String
  | result _ => "result"
  | exception _ => "exception"
  | either .. => "exc_result"
  | error => "error"

/-- A slot as messages show it. -/
def text : Slot → String
  | result t => "Result(" ++ t.text ++ ")"
  | exception t => "Exception(" ++ t.text ++ ")"
  | either e r => "ExcResult(" ++ e.text ++ ", " ++ r.text ++ ")"
  | error => "Error"

/-- The type a slot gives to results, if it waits for them. -/
def resultType? : Slot → Option Ty
  | result t => some t
  | either _ t => some t
  | _ => none

/-- The type a slot gives to exceptions, if it waits for them. -/
def exceptionType? : Slot → Option Ty
  | exception t => some t
  | either t _ => some t
  | _ => none

/-- Whether the slot waits for errors. -/
def isError : Slot → Bool
  | error => true
  | _ => false

/-- Whether a wrapper may hand the slot to every call. -/
def isDefault : Slot → Bool
  | result _ => true
  | error => true
  | _ => false

end Slot

/-- The events that handlers are registered under. -/
def eventNames : List String :=
  ["result", "exception", "exc_result", "error"]

end Parley
