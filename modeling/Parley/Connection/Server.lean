import Parley.Endpoint
import Parley.Registry
import Parley.Wire.Encode

/-!
# Servers: requests as frames of bytes

A server answers the requests of callers. A native function that raises an exception is not
answered.

* `Server.start` : a server begins to listen.
* `Server.receive` : a request comes in.
-/

namespace Parley

/-- The state of a server; its terms are what it serves, and it makes no calls. -/
abbrev Server (κ ι : Type) := Endpoint Empty (Registry ι) κ

namespace Server

variable {κ ι : Type}

/-- What a server does. -/
abbrev Op (κ ι α : Type) := Operation (Server κ ι) (List UInt8) κ ι α

/-- A server comes into being. -/
def start (reliable : Bool) : Op κ ι Unit := do
  if !reliable then
    Operation.log .debug "serving calls over an unreliable transport" []
  Operation.listen

/-- The identifier and the name at the front of a request. -/
def header : Reader (Nat × String) := do
  let id ← Reader.word
  return (id, ← Reader.zcstring)

/-- Sends the reply of a call that succeeded. -/
def reply (id : Nat) (v : Value) (encoding : List Encoding) : Op κ ι Unit := do
  let frame := littleEndian 4 id ++ (← (encode encoding v).toExcept)
  Operation.log .trace "sending reply frame"
    [("call_id", .number id), ("len", .number frame.length)]
  if !(← Operation.send frame) then
    Operation.log .warn "transport refused reply" [("call_id", .number id)]

/-- A request comes in: the function it names is run and, if it succeeds, answered. -/
def receive (frame : List UInt8) : Op κ ι Unit := do
  Operation.log .trace "received request frame" [("len", .number frame.length)]
  let (read, afterHeader) := header.run (Cursor.start frame)
  let (id, name) ← read
  let call : List (String × LogValue) := [("call_id", .number id), ("name", .text name)]
  match (← get).terms.function? name with
  | none =>
    Operation.log .warn "call to unregistered function" call
    throw (.unregistered name)
  | some function =>
    let native := function.native
    let (read, after) := (decodeArguments function.encoding.args native.domain).run afterHeader
    let args ← read
    if 0 < after.remaining then
      Operation.log .debug "ignoring trailing bytes" (call ++ [("extra", .number after.remaining)])
    Operation.log .debug "received call" call
    let job ← (native.job args).mapError Error.mismatch
    match ← Operation.invoke job with
    | .error exception =>
      Operation.log .error "native function raised an exception"
        (call ++ [("exception", .text exception)])
    | .ok v =>
      if (← get).config.isOneWay name then return ()
      reply id v function.encoding.result

/-- The transport closed. -/
def close : Op κ ι Unit :=
  Operation.log .debug "client disconnected" []

/-- The transport failed. -/
def fail (reason : String) : Op κ ι Unit :=
  Operation.log .warn "client transport failed" [("reason", .text reason)]

end Server

end Parley
