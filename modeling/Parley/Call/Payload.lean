import Parley.Json.Convert
import Parley.Native.Records
import Parley.Wire.Decode

/-!
# Payloads of replies

What a reply carries is read anew for each handler, as data of the type that handler asks for.

* `Payload` : JSON that may be missing, or bytes with their encoding.
* `Payload.cast` : the payload as a value of a type.
* `Payload.describe` : a short text for a payload that nobody handles.
-/

namespace Parley

/-- What a reply carries. -/
inductive Payload where
  | json (j : Option Json)
  | wire (data : List UInt8) (encoding : List Encoding)

namespace Payload

/-- The payload as a value of a type; a missing one is the type's default. -/
def cast (p : Payload) (t : Ty) : Except Error Value :=
  match p with
  | json (some j) => (Value.ofJsonAs t j).mapError .mismatch
  | json none => .ok t.default
  | wire data encoding => ((decode encoding t).run (Cursor.start data)).1

/-- The message of an exception, or else the JSON text or the size of the payload. -/
def describe : Payload → String
  | json none => "(no details)"
  | json (some j) =>
    match exceptionText? (Value.ofJson j) with
    | some "" => j.text
    | some message => message
    | none => j.text
  | wire data _ => toString data.length ++ " byte payload"

end Payload

end Parley
