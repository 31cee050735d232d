import Parley.Connection.Wrapper
import Parley.Json.Source
import Parley.Registry

/-!
# Peers: calls as JSON text

A peer calls and serves over a transport of texts. A message is a JSON array: `"call"`, the call's
identifier, the function's name and the arguments; or `"call-reply"`, the identifier, whether the
call succeeded and the result or the exception.

* `Peer.callMessage`, `Peer.resultMessage`, `Peer.exceptionMessage` : the messages.
* `Peer.call` : a call goes out.
* `Peer.receive` : a message comes in.
* `Peer.close`, `Peer.fail` : the transport is gone.
-/

namespace Parley

/-- The state of a peer; its terms are what it serves. -/
abbrev Peer (κ ι : Type) := Endpoint Unit (Registry ι) κ

namespace Peer

variable {κ ι : Type}

/-- What a peer does. -/
abbrev Op (κ ι α : Type) := Operation (Peer κ ι) String κ ι α

/-! ## Messages -/

/-- A number as JSON; call identifiers have 32 bits. -/
def numberJson (n : Nat) : Json :=
  if h : IsWhole n then .whole n h else .null

/-- The message of a call. -/
def callMessage (id : Nat) (name : String) (args : List Value) : List Json :=
  .string "call" :: numberJson id :: .string name :: args.map Value.toJson

/-- The reply of a call that succeeded; a function that returns nothing leaves the result out. -/
def resultMessage (id : Nat) (range : Ty) (v : Value) : List Json :=
  [.string "call-reply", numberJson id, .bool true]
    ++ match range with
      | .nil => []
      | _ => [v.toJson]

/-- The reply of a call that raised an exception. -/
def exceptionMessage (id : Nat) (exception : String) : List Json :=
  [.string "call-reply", numberJson id, .bool false, (exceptionValue exception).toJson]

/-- Sends a message. -/
def send (message : List Json) : Op κ ι Unit := do
  let text := (Json.array message).text
  if !(← Operation.send text) then
    Operation.log .warn "transport refused message" [("len", .number text.utf8ByteSize)]

/-! ## Calling -/

/-- A peer comes into being. -/
def start : Op κ ι Unit :=
  Operation.listen

/-- The wrapper of a remote function. -/
def wrapper (p : Peer κ ι) (name mapping : String) (defaults : List (Handler κ)) :
    Except Error (Wrapper κ) :=
  Wrapper.make name (p.terms.encoding mapping) defaults

/-- Calls a remote function; yields the call's identifier unless nobody waits for a reply. -/
def call (w : Wrapper κ) (args : List Value) : Op κ ι (Option Nat) := do
  let id ← Endpoint.allocate
  Operation.log .debug "sending call" [("call_id", .number id), ("name", .text w.name)]
  send (callMessage id w.name args)
  if (← get).config.isOneWay w.name then return none
  Endpoint.start id w.defaults ()
  return some id

/-! ## Receiving -/

/-- The call identifier a message gives. -/
def callId (found : Option Json) : Except Error Nat :=
  match found.bind Json.whole? with
  | some n => if IntKind.u32.Holds n then .ok n.toNat else .error (.badCallId found)
  | none => .error (.badCallId found)

/-- A reply comes in: the call it names ends. -/
def receiveReply (rest : List Json) : Op κ ι Unit := do
  let id ← callId rest[0]?
  match rest[1]?.bind Json.bool? with
  | none => throw (.noStatus id)
  | some success =>
    Endpoint.takePending id
    Operation.log .debug "received reply" [("call_id", .number id), ("success", .flag success)]
    if success then Endpoint.succeed id (.json rest[2]?)
    else Endpoint.raise id (.json rest[2]?)

/-- The arguments of a call as values of the types a function takes. -/
def readArguments (types : List Ty) (args : List Json) : Except Error (List Value) :=
  (types.zip args).mapM fun (t, j) => (Value.ofJsonAs t j).mapError .mismatch

/-- A call comes in: the function it names is run and answered. -/
def receiveCall (rest : List Json) : Op κ ι Unit := do
  let id ← callId rest[0]?
  match rest[1]?.bind Json.string? with
  | none => throw (.noMethodName id)
  | some name =>
    match (← get).terms.function? name with
    | none => throw (.unregistered name)
    | some function =>
      let native := function.native
      let given := rest.drop 2
      if given.length ≠ native.domain.length then
        throw (.argumentCount name native.domain.length given.length)
      let args ← readArguments native.domain given
      Operation.log .debug "received call" [("call_id", .number id), ("name", .text name)]
      let job ← (native.job args).mapError Error.mismatch
      let reply ← match ← Operation.invoke job with
        | .ok v => pure (resultMessage id native.range v)
        | .error exception => do
          Operation.log .debug "native function raised an exception"
            [("call_id", .number id), ("name", .text name), ("exception", .text exception)]
          pure (exceptionMessage id exception)
      if (← get).config.isOneWay name then return ()
      send reply

/-- A parsed message comes in. -/
def dispatch (message : String) : Op κ ι Unit := do
  match Json.parseArray? message with
  | none => throw .malformedJson
  | some [] => throw .emptyMessage
  | some (kind :: rest) =>
    match kind.string? with
    | some "call-reply" => receiveReply rest
    | some "call" => receiveCall rest
    | _ => throw (.unknownMessage kind)

/-- Whether a failure to handle a message is worth a line in the log: an exception that nobody
waits for had its own. -/
def isReported : Error → Bool
  | .unhandledException .. => false
  | _ => true

/-- A message comes in. -/
def receive (message : String) : Op κ ι Unit := do
  Operation.log .trace "received message" [("len", .number message.utf8ByteSize)]
  match ← ExceptT.lift (dispatch message).outcome with
  | .ok () => return ()
  | .error e =>
    if isReported e then
      Operation.log .warn "failed to handle message" [("err", .text e.message)]
    throw e

/-- The transport failed. -/
def fail (reason : String) : Op κ ι Unit :=
  Endpoint.failAll reason

/-- The transport closed. -/
def close : Op κ ι Unit := do
  fail (← get).config.closeReason

end Peer

end Parley
