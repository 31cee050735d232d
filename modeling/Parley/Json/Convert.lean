import Parley.Json.Basic
import Parley.Value.Cast

/-!
# Values as JSON

Records of either kind are objects, integers are whole numbers, floats are widened to doubles, and
what JSON has no number for is null. Reading back without a type gives doubles, 64-bit integers and
records with value semantics; reading with a type casts that.

* `Value.toJson` : a value as JSON.
* `Value.ofJson`, `Value.ofJsonAs` : JSON as a value, untyped and typed.
-/

namespace Parley

/-- A double as JSON; a NaN or an infinity is null. -/
def Json.ofDouble (bits : UInt64) : Json :=
  if h : IsFiniteDouble bits then .float bits h else .null

theorem IntKind.isWhole_of_holds {k : IntKind} {n : Int} (h : k.Holds n) : IsWhole n := by
  cases k <;> simp [IntKind.Holds, IntKind.min, IntKind.max, IntKind.signed, IntKind.modulus,
    IsWhole] at h ⊢ <;> omega

/-- A scalar as JSON. -/
def Scalar.toJson : Scalar → Json
  | .nil => .null
  | .bool b => .bool b
  | .int n => .whole n.val (IntKind.isWhole_of_holds n.inRange)
  | .float bits =>
    Json.ofDouble (UInt64.ofNat (Binary.convert Binary.binary32 Binary.binary64 bits.toNat))
  | .double bits => Json.ofDouble bits
  | .string s => .string s

namespace Value

mutual

/-- A value as JSON. -/
def toJson : Value → Json
  | scalar s => s.toJson
  | array items => .array (toJsonItems items)
  | record _ fields => .object (toJsonMembers fields)

/-- The items of an array as JSON. -/
def toJsonItems : List Value → List Json
  | [] => []
  | v :: rest => v.toJson :: toJsonItems rest

/-- The fields of a record as the members of an object. -/
def toJsonMembers : List (String × Value) → List (String × Json)
  | [] => []
  | (n, v) :: rest => (n, v.toJson) :: toJsonMembers rest

end

/-- A whole number as a signed 64-bit integer, or as an unsigned one if it is too large. -/
def ofWhole (n : Int) (h : IsWhole n) : Value :=
  if k : IntKind.i64.Holds n then int ⟨.i64, n, k⟩
  else int ⟨.u64, n, h.resolve_left k⟩

mutual

/-- JSON as a value, without a type. -/
def ofJson : Json → Value
  | .null => nil
  | .bool b => bool b
  | .whole n h => ofWhole n h
  | .float bits _ => scalar (.double bits)
  | .string s => string s
  | .array items => array (ofJsonItems items)
  | .object members => record .value (ofJsonMembers members)

/-- The items of a JSON array as values. -/
def ofJsonItems : List Json → List Value
  | [] => []
  | j :: rest => ofJson j :: ofJsonItems rest

/-- The members of an object as fields. -/
def ofJsonMembers : List (String × Json) → List (String × Value)
  | [] => []
  | (n, j) :: rest => (n, ofJson j) :: ofJsonMembers rest

end

/-- JSON as a value of a type. -/
def ofJsonAs (t : Ty) (j : Json) : Except TypeMismatch Value :=
  cast t (ofJson j)

end Value

end Parley
