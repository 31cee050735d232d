import Parley.Document.Basic
import Parley.Mapping.Basic

/-!
# The built-in login service

One interface document and one type mapping are always at hand: those of the login service.

* `Login.uri`, `Login.document` : the document and its address.
* `Login.mappingId`, `Login.mapping` : the mapping and its identifier.
* `Library.builtin`, `Mappings.builtin` : what a library and a set of mappings start with.
-/

namespace Parley.Login

/-- The address of the document. -/
def uri : String := "http://localhost/home/kiara/login.idl"

/-- The identifier of the mapping. -/
def mappingId : String := "hard-coded-1"

/-- The declarations of the service and its types. -/
def document : Document :=
  Document.empty
    |>.declare "opensim.FullName" (.struct [("first", "string"), ("last", "string")])
    |>.declare "opensim.LoginRequest" (.struct
      [("name", "opensim.FullName"), ("pwdHash", "string"), ("start", "string"),
       ("channel", "string"), ("version", "string"), ("platform", "string"), ("mac", "string"),
       ("options", "string[]"), ("id0", "string"), ("agree_to_tos", "string"),
       ("read_critical", "string"), ("viewer_digest", "string")])
    |>.declare "opensim.AccessType" (.enum [("Mature", 0), ("Teen", 1)])
    |>.declare "opensim.LoginResponse" (.struct
      [("name", "opensim.FullName"), ("login", "string"), ("sim_ip", "string"),
       ("start_location", "string"), ("seconds_since_epoch", "u64"), ("message", "string"),
       ("circuit_code", "u32"), ("sim_port", "u16"), ("secure_session_id", "string"),
       ("look_at", "string"), ("agent_id", "string"), ("inventory_host", "string"),
       ("region_y", "i32"), ("region_x", "i32"), ("seed_capability", "string"),
       ("agent_access", "opensim.AccessType"), ("session_id", "string")])
    |>.serve "opensim.login" "WebSocket" "ws://localhost:9000/kiara/login"
      [("login_to_simulator", ⟨"opensim.LoginResponse", [("request", "opensim.LoginRequest")]⟩)]

/-- A text at a path. -/
def text (path : Path) : MappingEntry :=
  .base .zcstring path

/-- An unsigned word at a path. -/
def word (path : Path) : MappingEntry :=
  .base .u32 path

/-- A signed word at a path. -/
def signedWord (path : Path) : MappingEntry :=
  .base .i32 path

/-- Two bytes at a path. -/
def short (path : Path) : MappingEntry :=
  .base .u16 path

/-- The layout of a login request and of the response to it. -/
def mapping : TypeMapping where
  args :=
    [text [.index 0, .name "name", .name "first"], text [.index 0, .name "name", .name "last"],
     text [.index 0, .name "pwdHash"], text [.index 0, .name "start"],
     text [.index 0, .name "channel"], text [.index 0, .name "version"],
     text [.index 0, .name "platform"], text [.index 0, .name "mac"],
     .array [.index 0, .name "options"] [text []],
     text [.index 0, .name "id0"], text [.index 0, .name "agree_to_tos"],
     text [.index 0, .name "read_critical"], text [.index 0, .name "viewer_digest"]]
  result :=
    [text [.name "name", .name "first"], text [.name "name", .name "last"],
     text [.name "login"], text [.name "sim_ip"], text [.name "start_location"],
     word [.name "seconds_since_epoch"], text [.name "message"], word [.name "circuit_code"],
     short [.name "sim_port"], text [.name "secure_session_id"], text [.name "look_at"],
     text [.name "agent_id"], text [.name "inventory_host"], signedWord [.name "region_y"],
     signedWord [.name "region_x"], text [.name "seed_capability"],
     .enum [.name "agent_access"] "Mature" 0 [("Mature", 0), ("Teen", 1)],
     text [.name "session_id"]]

end Parley.Login

namespace Parley

/-- The library that holds the login document. -/
def Library.builtin : Library :=
  [(Login.uri, Login.document)]

/-- The mappings that hold the login mapping. -/
def Mappings.builtin : Mappings :=
  [(Login.mappingId, Login.mapping)]

end Parley
