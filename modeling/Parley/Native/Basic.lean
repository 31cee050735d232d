import Parley.Value.Cast

/-!
# Native data

A native function works on data of its types rather than on values. The data of a type is given by
the type: a list for an array, a row with one entry per field for a record.

* `Ty.Carrier`, `Ty.Row`, `Ty.Tuple` : the data of a type, a table of fields, a parameter list.
* `Ty.encode`, `Ty.decode` : data as values and back.
* `Ty.encodeTuple`, `Ty.decodeTuple` : the same for parameter lists.
* `Ty.conform` : a value read as native data and written again.
-/

namespace Parley

/-- The data of a scalar type. -/
abbrev ScalarTy.Carrier : ScalarTy → Type
  | .nil => Unit
  | .bool => Bool
  | .int k => { n : Int // k.Holds n }
  | .float => UInt32
  | .double => UInt64
  | .string => String

namespace ScalarTy

/-- Data as a scalar. -/
def encode : (t : ScalarTy) → t.Carrier → Scalar
  | .nil, _ => .nil
  | .bool, b => .bool b
  | .int k, n => .int ⟨k, n.val, n.property⟩
  | .float, bits => .float bits
  | .double, bits => .double bits
  | .string, s => .string s

/-- The data of a scalar that has the type. -/
def data? : (t : ScalarTy) → Scalar → Option t.Carrier
  | .nil, .nil => some ()
  | .bool, .bool b => some b
  | .int k, .int n => if h : n.kind = k then some ⟨n.val, h ▸ n.inRange⟩ else none
  | .float, .float bits => some bits
  | .double, .double bits => some bits
  | .string, .string s => some s
  | _, _ => none

end ScalarTy

namespace Ty

mutual

/-- The data of a type. -/
@[reducible] def Carrier : Ty → Type
  | scalar s => s.Carrier
  | array t => List t.Carrier
  | record _ _ table => Row table

/-- The data of a table of fields. -/
@[reducible] def Row : List (String × Ty) → Type
  | [] => Unit
  | (_, t) :: table => t.Carrier × Row table

end

/-- The data of a parameter list. -/
@[reducible] def Tuple : List Ty → Type
  | [] => Unit
  | t :: types => t.Carrier × Tuple types

/-! ## Data as values -/

mutual

/-- Data as a value. -/
def encode : (t : Ty) → t.Carrier → Value
  | scalar s, x => .scalar (s.encode x)
  | array t, xs => .array (xs.map (encode t))
  | record kind _ table, row => .record kind (Table.ofList (encodeRow table row))
termination_by structural t => t

/-- The data of a table as fields, in its order. -/
def encodeRow : (table : List (String × Ty)) → Row table → List (String × Value)
  | [], _ => []
  | (n, t) :: table, (x, row) => (n, encode t x) :: encodeRow table row
termination_by structural table => table

end

/-- The data of a parameter list as values. -/
def encodeTuple : (types : List Ty) → Tuple types → List Value
  | [], _ => []
  | t :: types, (x, rest) => t.encode x :: encodeTuple types rest

/-! ## Values as data -/

mutual

/-- The data of a value: scalars are cast, arrays are read item by item, and a record takes its
declared fields from a record of either kind, at their default if they are missing. -/
def decode : (t : Ty) → Value → Except TypeMismatch t.Carrier
  | scalar s, v => do
    let w ← castScalar s v
    match s.data? w with
    | some x => return x
    | none => throw (.unsuited (.scalar w) (scalar s))
  | array t, .array items => items.mapM (decode t)
  | array t, v => .error (.unsuited v (array t))
  | record kind name table, v =>
    match v.fields? with
    | some fields => decodeRow table fields
    | none => .error (.unsuited v (record kind name table))
termination_by structural t => t

/-- The data of the fields of a table, each taken out of the fields. -/
def decodeRow : (table : List (String × Ty)) → Fields → Except TypeMismatch (Row table)
  | [], _ => .ok ()
  | (n, t) :: table, fields => do
    let x ← decode t ((Table.find? n fields).getD t.default)
    return (x, ← decodeRow table (Table.erase n fields))
termination_by structural table => table

end

/-- The data of a list of values; missing values are nothing and those beyond the list of types are
ignored. -/
def decodeTuple : (types : List Ty) → List Value → Except TypeMismatch (Tuple types)
  | [], _ => .ok ()
  | t :: types, values => do
    let x ← t.decode (values.headD .nil)
    return (x, ← decodeTuple types values.tail)

/-- A value read as native data and written again. -/
def conform (t : Ty) (v : Value) : Except TypeMismatch Value :=
  (t.decode v).map t.encode

/-- A list of values read as native data and written again. -/
def conformAll (types : List Ty) (values : List Value) : Except TypeMismatch (List Value) :=
  (decodeTuple types values).map (encodeTuple types)

end Ty

end Parley
