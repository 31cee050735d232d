import Parley.Value.Basic

/-!
# Checked casts

`cast` takes a value to a native type or fails. Integers go to any integer type that has their
number and, rounded, to any floating-point type; floats go to either width; nothing goes to a text
as the empty one; arrays go item by item. A record of either kind goes to a record type of either
kind when the table of the type has all its fields, and fields it lacks start at their default.

* `TypeMismatch` : why a cast fails.
* `Scalar.cast?`, `castScalar`, `cast` : the casts.
* `settle` : what a value whose cast went through has become, its shared records being cast in
  place.
-/

namespace Parley

/-- A value that does not go to a type: it is unsuited, or it is a record whose known fields went
through but which has others. -/
inductive TypeMismatch where
  | unsuited (value : Value) (expected : Ty)
  | surplus (value : Value) (expected : Ty)
  deriving Repr

/-- The type that was asked for. -/
def TypeMismatch.expected : TypeMismatch → Ty
  | .unsuited _ t => t
  | .surplus _ t => t

/-- A scalar as one of a scalar type. -/
def Scalar.cast? : ScalarTy → Scalar → Option Scalar
  | .int k, .int n => (Integer.ofInt? k n.val).map .int
  | .float, .int n => some (.float (UInt32.ofNat (Binary.ofInt Binary.binary32 n.val)))
  | .double, .int n => some (.double (UInt64.ofNat (Binary.ofInt Binary.binary64 n.val)))
  | .nil, .nil => some .nil
  | .bool, .bool b => some (.bool b)
  | .float, .float bits => some (.float bits)
  | .float, .double bits =>
    some (.float (UInt32.ofNat (Binary.convert Binary.binary64 Binary.binary32 bits.toNat)))
  | .double, .float bits =>
    some (.double (UInt64.ofNat (Binary.convert Binary.binary32 Binary.binary64 bits.toNat)))
  | .double, .double bits => some (.double bits)
  | .string, .string s => some (.string s)
  | .string, .nil => some (.string "")
  | _, _ => none

/-- A value as a scalar. -/
def castScalar (t : ScalarTy) : Value → Except TypeMismatch Scalar
  | .scalar s =>
    match s.cast? t with
    | some s' => .ok s'
    | none => .error (.unsuited (.scalar s) (.scalar t))
  | v => .error (.unsuited v (.scalar t))

mutual

/-- A value as one of a type. -/
def cast : Ty → Value → Except TypeMismatch Value
  | .scalar t, v => do
    return .scalar (← castScalar t v)
  | .array element, .array items => do
    return .array (← items.mapM (cast element))
  | .record kind name table, .record kind' fields => do
    let (done, rest) ← castFields table fields
    if rest.isEmpty then return .record kind (Table.ofList done)
    throw (.surplus (.record kind' fields) (.record kind name table))
  | t, v => .error (.unsuited v t)
termination_by structural t => t

/-- The fields of a table in its order, each taken from the fields and cast or started anew, and
the fields that are left. -/
def castFields : List (String × Ty) → Fields → Except TypeMismatch (Fields × Fields)
  | [], fields => .ok ([], fields)
  | (n, t) :: table, fields => do
    let v ← match Table.find? n fields with
      | some v => cast t v
      | none => .ok t.default
    let (done, rest) ← castFields table (Table.erase n fields)
    return ((n, v) :: done, rest)
termination_by structural table => table

end

/-! ## What a cast leaves behind -/

mutual

/-- What a value has become once it was cast: a shared record cast to a shared one is the result
itself, any other container keeps its shape around parts that were cast in place. -/
def settle : Ty → Value → Value
  | .array element, .array items => .array (items.map (settle element))
  | .record .reference _ table, .record .reference fields =>
    match castFields table fields with
    | .ok (done, _) => .record .reference (Table.ofList done)
    | .error _ => .record .reference fields
  | .record .value _ table, .record kind fields => .record kind (settleFields table fields)
  | .record .reference _ table, .record .value fields => .record .value (settleFields table fields)
  | _, v => v
termination_by structural t => t

/-- The fields of a record after each field of a table was cast; of two entries with one name the
first casts. -/
def settleFields : List (String × Ty) → Fields → Fields
  | [], fields => fields
  | (n, t) :: table, fields =>
    match Table.find? n fields with
    | some v => Table.insert n (settle t v) (settleFields table (Table.erase n fields))
    | none => settleFields table fields
termination_by structural table => table

end

/-- The value of a mismatch as it stands when the mismatch is found. -/
def TypeMismatch.value : TypeMismatch → Value
  | .unsuited v _ => v
  | .surplus (.record kind fields) (.record _ _ table) => .record kind (settleFields table fields)
  | .surplus v _ => v

/-- The text of a mismatch. -/
def TypeMismatch.message (m : TypeMismatch) : String :=
  "Type error: " ++ m.value.text ++ " :/: " ++ m.expected.text

end Parley
