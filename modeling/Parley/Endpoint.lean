import Parley.Action
import Parley.Call.Payload
import Parley.Connection.Config

/-!
# Endpoints and the outcomes of their calls

An endpoint has settings, terms (what it serves or how it encodes) and calls. The outcome of a call
reaches its handlers all or nothing: the payload is cast for every handler that waits for the
outcome before any of them is given its value, and if one cast fails the call ends in an error.

* `Endpoint` : the state of an endpoint.
* `Endpoint.start` : a call is begun.
* `Endpoint.register` : a handler is registered for a call.
* `Endpoint.succeed`, `Endpoint.raise`, `Endpoint.fail` : a call ends.
* `Endpoint.failAll` : all pending calls end.
-/

namespace Parley

/-- The state of an endpoint whose pending calls carry `ε` and whose terms are `ρ`. -/
structure Endpoint (ε ρ κ : Type) where
  config : Config
  terms : ρ
  calls : Calls ε κ

namespace Endpoint

variable {ε ρ μ κ ι : Type}

/-- An endpoint without calls. -/
def ofTerms (config : Config) (terms : ρ) : Endpoint ε ρ κ :=
  ⟨config, terms, .empty⟩

/-- Changes the calls of the endpoint. -/
def updateCalls (f : Calls ε κ → Calls ε κ) : Operation (Endpoint ε ρ κ) μ κ ι Unit :=
  modify fun s => { s with calls := f s.calls }

/-- Takes the next call identifier. -/
def allocate : Operation (Endpoint ε ρ κ) μ κ ι Nat := do
  let s ← get
  let (id, calls) ← s.calls.allocate
  set { s with calls := calls }
  return id

/-- Enters a call with the handlers every call of its wrapper is given. -/
def start (id : Nat) (defaults : List (Handler κ)) (e : ε) :
    Operation (Endpoint ε ρ κ) μ κ ι Unit := do
  let call ← Call.startWith id defaults
  updateCalls fun c => c.enter call e

/-- Takes a call out of those that wait for a reply; yields what is needed to read the reply. -/
def takePending (id : Nat) : Operation (Endpoint ε ρ κ) μ κ ι ε := do
  match Table.find? id (← get).calls.pending with
  | none => throw (.unknownCall id)
  | some e =>
    updateCalls fun c => c.settle id
    return e

/-- The state of a call. -/
def call? (id : Nat) : Operation (Endpoint ε ρ κ) μ κ ι (Option (Call κ)) := do
  return (← get).calls.find? id

/-- Registers a handler for a call under an event. -/
def register (id : Nat) (event : String) (h : Handler κ) :
    Operation (Endpoint ε ρ κ) μ κ ι Unit := do
  match ← call? id with
  | none => throw (.unknownCall id)
  | some call =>
    let call ← call.on event h
    updateCalls fun c => c.put call

/-- Resolves a call; yields the handlers it had. -/
def resolve (id : Nat) : Operation (Endpoint ε ρ κ) μ κ ι (List (Handler κ)) := do
  match ← call? id with
  | none => return []
  | some call =>
    updateCalls fun c => c.put call.resolve
    return if call.resolved then [] else call.handlers

/-- Gives the reason of an error to the handlers of a call that wait for one. -/
def explain (id : Nat) (reason : String) :
    List (Handler κ) → Operation (Endpoint ε ρ κ) μ κ ι Unit
  | [] => return ()
  | h :: rest => do
    if h.slot.isError then
      let _ ← Operation.deliver id h (.reason reason)
    explain id reason rest

/-- Ends a call in an error. -/
def fail (id : Nat) (reason : String) : Operation (Endpoint ε ρ κ) μ κ ι Unit := do
  explain id reason (← resolve id)

/-- The payload cast for each handler that waits for an outcome. -/
def castAll (payload : Payload) (slotType? : Slot → Option Ty) :
    List (Handler κ) → Except Error (List (Handler κ × Value))
  | [] => .ok []
  | h :: rest =>
    match slotType? h.slot with
    | none => castAll payload slotType? rest
    | some t => do
      let v ← payload.cast t
      return (h, v) :: (← castAll payload slotType? rest)

/-- What a handler is given of a result. -/
def resultFor (h : Handler κ) (v : Value) : Except TypeMismatch Delivery := do
  let w ← h.readResult v
  match h.slot with
  | .either .. => return .either none (some w)
  | _ => return .value w

/-- What a handler is given of an exception. -/
def exceptionFor (h : Handler κ) (v : Value) : Except TypeMismatch Delivery := do
  let w ← h.readException v
  match h.slot with
  | .either .. => return .either (some w) none
  | _ => return .value w

/-- Gives each handler of a call its value, in order; yields the first failure. -/
def deliverAll (id : Nat) (read : Handler κ → Value → Except TypeMismatch Delivery) :
    List (Handler κ × Value) → Operation (Endpoint ε ρ κ) μ κ ι (Except Error Unit)
  | [] => return .ok ()
  | (h, v) :: rest => do
    let first ← match read h v with
      | .error m => pure (.error (.mismatch m))
      | .ok d => Operation.deliver id h d
    let others ← deliverAll id read rest
    match first with
    | .error e => return .error e
    | .ok () => return others

/-- Ends a call in an outcome: its handlers for that outcome are given the payload, unless it does
not cast for one of them. -/
def finish (id : Nat) (call : Call κ) (payload : Payload) (slotType? : Slot → Option Ty)
    (read : Handler κ → Value → Except TypeMismatch Delivery) :
    Operation (Endpoint ε ρ κ) μ κ ι Unit := do
  match castAll payload slotType? call.handlers with
  | .error e =>
    fail id e.message
    throw e
  | .ok casts =>
    let _ ← resolve id
    match ← deliverAll id read casts with
    | .error e => throw e
    | .ok () => return ()

/-- Ends a call in its result. -/
def succeed (id : Nat) (payload : Payload) : Operation (Endpoint ε ρ κ) μ κ ι Unit := do
  match ← call? id with
  | none => return ()
  | some call =>
    if call.resolved then return ()
    finish id call payload Slot.resultType? resultFor

/-- Ends a call in an exception; one that nobody waits for is an error of its own. -/
def raise (id : Nat) (payload : Payload) : Operation (Endpoint ε ρ κ) μ κ ι Unit := do
  match ← call? id with
  | none => return ()
  | some call =>
    if call.resolved then return ()
    if call.handlers.any (fun h => h.slot.exceptionType?.isSome) then
      finish id call payload Slot.exceptionType? exceptionFor
    else
      let _ ← resolve id
      let exception := payload.describe
      Operation.log .error "unhandled exception"
        [("call_id", .number id), ("exception", .text exception)]
      throw (.unhandledException id exception)

/-- Ends each of the given calls in an error. -/
def failEach (reason : String) : List Nat → Operation (Endpoint ε ρ κ) μ κ ι Unit
  | [] => return ()
  | id :: rest => do
    fail id reason
    failEach reason rest

/-- Ends all pending calls in an error. -/
def failAll (reason : String) : Operation (Endpoint ε ρ κ) μ κ ι Unit := do
  let active := (← get).calls.active
  updateCalls fun c => { c with pending := [] }
  Operation.log .debug "failing pending calls"
    [("pending", .number active.length), ("reason", .text reason)]
  failEach reason active

end Endpoint

end Parley
