import Parley.Connection.Wrapper
import Parley.Wire.Encode

/-!
# Callers: calls as frames of bytes

A caller sends requests over a transport of frames. A request is the call's identifier in four
bytes, the function's name as a closed text and the encoded arguments; a reply is the identifier and
the encoded result. No frame carries an exception.

* `requestFrame` : the bytes of a request.
* `Caller.call` : a call goes out.
* `Caller.receive` : a reply comes in.
* `Caller.close`, `Caller.fail` : the transport is gone.
-/

namespace Parley

/-- The bytes of a request. -/
def requestFrame (id : Nat) (name : String) (args : List Value) (encoding : List Encoding) :
    Except Error (List UInt8) := do
  let encoded ← (encodeArguments encoding args).toExcept
  return littleEndian 4 id ++ zeroTerminated name ++ encoded

/-- The state of a caller; its terms are its mappings, and a pending call keeps the encoding of its
result. -/
abbrev Caller (κ : Type) := Endpoint (List Encoding) Mappings κ

namespace Caller

variable {κ ι : Type}

/-- What a caller does. -/
abbrev Op (κ ι α : Type) := Operation (Caller κ) (List UInt8) κ ι α

/-- A caller comes into being. -/
def start : Op κ ι Unit :=
  Operation.listen

/-- The wrapper of a remote function. -/
def wrapper (c : Caller κ) (name mapping : String) (defaults : List (Handler κ)) :
    Except Error (Wrapper κ) :=
  Wrapper.make name (c.terms.compile mapping) defaults

/-- Calls a remote function; yields the call's identifier unless nobody waits for a reply. -/
def call (w : Wrapper κ) (args : List Value) : Op κ ι (Option Nat) := do
  let id ← Endpoint.allocate
  let frame ← requestFrame id w.name args w.encoding.args
  Operation.log .debug "sending call"
    [("call_id", .number id), ("name", .text w.name), ("len", .number frame.length)]
  if !(← Operation.send frame) then
    Operation.log .warn "transport refused call" [("call_id", .number id), ("name", .text w.name)]
  if (← get).config.isOneWay w.name then return none
  Endpoint.start id w.defaults w.encoding.result
  return some id

/-- A reply comes in: the call it names ends. -/
def receive (frame : List UInt8) : Op κ ι Unit := do
  Operation.log .trace "received reply frame" [("len", .number frame.length)]
  let (read, after) := Reader.word.run (Cursor.start frame)
  let id ← read
  match Table.find? id (← get).calls.pending with
  | none =>
    Operation.log .warn "reply for unknown call" [("call_id", .number id)]
    throw (.unknownCall id)
  | some _ =>
    let result ← Endpoint.takePending id
    Operation.log .debug "received reply" [("call_id", .number id)]
    Endpoint.succeed id (.wire after.rest result)

/-- The transport failed. -/
def fail (reason : String) : Op κ ι Unit :=
  Endpoint.failAll reason

/-- The transport closed. -/
def close : Op κ ι Unit := do
  fail (← get).config.closeReason

end Caller

end Parley
