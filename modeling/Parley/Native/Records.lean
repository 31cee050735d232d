import Parley.Native.Basic

/-!
# Record types

The records that native functions and handlers work on.

* `exceptionTy` : what a native function fails with.
* `loginRequestTy`, `loginResponseTy` : the login service's records.
* `echoTy`, `pointTy`, `nodeTy`, `treeTy` : records of scripted sessions, `nodeTy` and `treeTy`
  shared.
* `exceptionText?` : the message of an exception.
-/

namespace Parley

/-- What a native function fails with. -/
abbrev exceptionTy : Ty :=
  .record .value "Exception" [("message", .string)]

/-- An exception with a message, as a value. -/
def exceptionValue (message : String) : Value :=
  exceptionTy.encode (message, ())

/-- The message of a value that reads as an exception. -/
def exceptionText? (v : Value) : Option String :=
  match exceptionTy.decode v with
  | .ok (message, ()) => some message
  | .error _ => none

/-- One text. -/
abbrev echoTy : Ty :=
  .record .value "Echo" [("value", .string)]

/-- A name in two parts. -/
abbrev fullNameTy : Ty :=
  .record .value "FullName" [("first", .string), ("last", .string)]

/-- A labelled place. -/
abbrev pointTy : Ty :=
  .record .value "Point" [("x", .int .i32), ("y", .int .i32), ("label", .string)]

/-- A login request. -/
abbrev loginRequestTy : Ty :=
  .record .value "LoginRequest"
    [("name", fullNameTy), ("pwdHash", .string), ("start", .string), ("channel", .string),
     ("version", .string), ("platform", .string), ("mac", .string), ("options", .array .string),
     ("id0", .string), ("agree_to_tos", .string), ("read_critical", .string),
     ("viewer_digest", .string)]

/-- The response to a login request. -/
abbrev loginResponseTy : Ty :=
  .record .value "LoginResponse"
    [("name", fullNameTy), ("login", .string), ("sim_ip", .string), ("start_location", .string),
     ("seconds_since_epoch", .int .u64), ("message", .string), ("circuit_code", .int .u32),
     ("sim_port", .int .u16), ("secure_session_id", .string), ("look_at", .string),
     ("agent_id", .string), ("inventory_host", .string), ("region_y", .int .i32),
     ("region_x", .int .i32), ("seed_capability", .string), ("agent_access", .string),
     ("session_id", .string)]

/-- A shared place with tags. -/
abbrev nodeTy : Ty :=
  .record .reference "Node" [("tags", .array .string), ("at", pointTy)]

/-- A shared tree of places. -/
abbrev treeTy : Ty :=
  .record .reference "Tree"
    [("root", nodeTy), ("kids", .array nodeTy), ("weight", .scalar .float)]

end Parley
