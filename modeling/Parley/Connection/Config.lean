/-!
# Settings of a connection

* `Config` : the functions that are called without waiting for a reply, and the reason given to
  calls that are pending when the connection closes.
-/

namespace Parley

/-- The settings of a connection. -/
structure Config where
  oneWayFunctions : List String
  closeReason : String
  deriving DecidableEq, Repr

namespace Config

/-- The settings of a connection that was given none. -/
def default : Config :=
  ⟨["opensim.connect.handshake"], "Connection closed."⟩

instance : Inhabited Config := ⟨default⟩

/-- Whether a function is called without waiting for a reply. -/
def isOneWay (c : Config) (function : String) : Bool :=
  c.oneWayFunctions.contains function

end Config

end Parley
