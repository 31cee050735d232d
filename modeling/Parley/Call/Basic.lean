import Parley.Call.Handler

/-!
# Calls in flight

A call has an identifier and collects handlers until it is resolved; from then on it has none.

* `Call` : the state of a call.
* `Call.on` : registering a handler; of handlers for errors only the latest is kept.
* `Calls` : the calls of a connection, those that are pending, and the next identifier.
-/

namespace Parley

/-- A call: unresolved with its handlers in the order they came, or resolved. -/
structure Call (κ : Type) where
  id : Nat
  resolved : Bool
  handlers : List (Handler κ)

namespace Call

variable {κ : Type}

/-- A call nobody waits for yet. -/
def start (id : Nat) : Call κ :=
  ⟨id, false, []⟩

/-- Registers a handler under an event. -/
def on (c : Call κ) (event : String) (h : Handler κ) : Except Error (Call κ) := do
  h.checkEvent event
  if c.resolved then throw (.alreadyResolved c.id)
  let kept := if h.slot.isError then c.handlers.filter (fun k => !k.slot.isError) else c.handlers
  return { c with handlers := kept ++ [h] }

/-- A call with the handlers that every call of a wrapper is given. -/
def startWith (id : Nat) (defaults : List (Handler κ)) : Except Error (Call κ) :=
  defaults.foldlM (fun c h => c.on h.slot.eventName h) (start id)

/-- The call once it is resolved. -/
def resolve (c : Call κ) : Call κ :=
  { c with resolved := true, handlers := [] }

/-- A call as messages show it. -/
def text (c : Call κ) : String :=
  "FunctionCall \x7b id: " ++ toString c.id ++ ", resolved: "
    ++ (if c.resolved then "true" else "false") ++ ", handlers: ["
    ++ ", ".intercalate (c.handlers.map fun h => h.slot.text) ++ "] \x7d"

end Call

/-- Handlers that every call is to be given may wait for results and errors only. -/
def checkDefaults {κ : Type} (defaults : List (Handler κ)) : Except Error Unit :=
  match defaults.find? (fun h => !h.slot.isDefault) with
  | some h => .error (.defaultHandler h.slot)
  | none => .ok ()

/-- The number of identifiers that calls of one connection can have. -/
def idLimit : Nat := IntKind.u32.modulus

/-- The calls of a connection: every call that was handed out by identifier, and those that wait
for a reply, each with what is needed to read it. -/
structure Calls (ε κ : Type) where
  nextId : Nat
  pending : List (Nat × ε)
  table : List (Nat × Call κ)

namespace Calls

variable {ε κ : Type}

/-- No calls yet. -/
def empty : Calls ε κ :=
  ⟨0, [], []⟩

/-- Takes the next identifier. -/
def allocate (c : Calls ε κ) : Except Error (Nat × Calls ε κ) :=
  if c.nextId < idLimit then .ok (c.nextId, { c with nextId := c.nextId + 1 })
  else .error .idsExhausted

/-- Enters a call that waits for a reply. -/
def enter (c : Calls ε κ) (call : Call κ) (e : ε) : Calls ε κ :=
  { c with pending := Table.insert call.id e c.pending, table := Table.insert call.id call c.table }

/-- Takes a pending call out of those that wait. -/
def settle (c : Calls ε κ) (id : Nat) : Calls ε κ :=
  { c with pending := Table.erase id c.pending }

/-- Replaces the state of a call. -/
def put (c : Calls ε κ) (call : Call κ) : Calls ε κ :=
  { c with table := Table.insert call.id call c.table }

/-- The state of a call. -/
def find? (c : Calls ε κ) (id : Nat) : Option (Call κ) :=
  Table.find? id c.table

/-- The identifiers of the pending calls in order. -/
def active (c : Calls ε κ) : List Nat :=
  Table.keys c.pending

end Calls

end Parley
