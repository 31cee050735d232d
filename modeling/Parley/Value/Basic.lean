import Parley.Decimal.Layout
import Parley.Table
import Parley.Text.Quoted
import Parley.Ty

/-!
# Values

The data that calls carry: scalars, arrays and records. Floating-point numbers are kept as their
bits. A record has its fields in name order; its kind says whether holders copy or share it.

* `Scalar`, `Value` : the data.
* `Ty.default` : the value a type starts with.
* `Value.text` : a value as messages show it.
* `Value.same` : equality of the numbers and texts that values stand for.
-/

namespace Parley

/-- Data without parts. -/
inductive Scalar where
  | nil
  | bool (b : Bool)
  | int (n : Integer)
  | float (bits : UInt32)
  | double (bits : UInt64)
  | string (s : String)
  deriving DecidableEq, Repr

/-- The data that calls carry. -/
inductive Value where
  | scalar (s : Scalar)
  | array (items : List Value)
  | record (kind : RecordKind) (fields : List (String × Value))
  deriving Repr

/-- Fields by name, in name order. -/
abbrev Fields := List (String × Value)

namespace Value

/-- The value that says nothing. -/
@[match_pattern] abbrev nil : Value := .scalar .nil

/-- A truth value. -/
@[match_pattern] abbrev bool (b : Bool) : Value := .scalar (.bool b)

/-- An integer. -/
@[match_pattern] abbrev int (n : Integer) : Value := .scalar (.int n)

/-- A text. -/
@[match_pattern] abbrev string (s : String) : Value := .scalar (.string s)

instance : Inhabited Value := ⟨nil⟩

/-- The text of a value that is one. -/
def text? : Value → Option String
  | string s => some s
  | _ => none

/-- The number of an integer of any kind. -/
def integer? : Value → Option Int
  | int n => some n.val
  | _ => none

/-- The fields of a record of either kind. -/
def fields? : Value → Option Fields
  | record _ fields => some fields
  | _ => none

/-- Whether holders of the value have copies. -/
def isCopied : Value → Bool
  | record .reference _ => false
  | _ => true

end Value

/-! ## Defaults -/

/-- The scalar a scalar type starts with. -/
def ScalarTy.default : ScalarTy → Scalar
  | .nil => .nil
  | .bool => .bool false
  | .int k => .int (Integer.zero k)
  | .float => .float 0
  | .double => .double 0
  | .string => .string ""

mutual

/-- The value a type starts with: zero, the empty text, the empty array, a record of such values. -/
def Ty.default : Ty → Value
  | .scalar s => .scalar s.default
  | .array _ => .array []
  | .record kind _ fields => .record kind (Table.ofList (Ty.defaults fields))

/-- The starting values of a table of fields, in its order. -/
def Ty.defaults : List (String × Ty) → List (String × Value)
  | [] => []
  | (n, t) :: rest => (n, t.default) :: Ty.defaults rest

end

/-! ## Text -/

/-- A scalar as messages show it. -/
def Scalar.text : Scalar → String
  | .nil => "Nil"
  | .bool b => "Bool(" ++ (if b then "true" else "false") ++ ")"
  | .int n => n.kind.name ++ "(" ++ toString n.val ++ ")"
  | .float bits => "Float(" ++ Binary.messageText Binary.binary32 bits.toNat ++ ")"
  | .double bits => "Double(" ++ Binary.messageText Binary.binary64 bits.toNat ++ ")"
  | .string s => "String(" ++ quoted s ++ ")"

/-- The frame messages put around the fields of a record. -/
def RecordKind.frame (fields : String) : RecordKind → String
  | .value => "Struct(\x7b" ++ fields ++ "\x7d)"
  | .reference => "Object(RefCell \x7b value: \x7b" ++ fields ++ "\x7d \x7d)"

mutual

/-- A value as messages show it. -/
def Value.text : Value → String
  | .scalar s => s.text
  | .array items => "Array([" ++ ", ".intercalate (Value.texts items) ++ "])"
  | .record kind fields => kind.frame (", ".intercalate (Value.fieldTexts fields))

/-- The items of an array, one text each. -/
def Value.texts : List Value → List String
  | [] => []
  | v :: rest => v.text :: Value.texts rest

/-- The fields of a record, one text each. -/
def Value.fieldTexts : List (String × Value) → List String
  | [] => []
  | (n, v) :: rest => (quoted n ++ ": " ++ v.text) :: Value.fieldTexts rest

end

/-! ## Equality of contents -/

/-- Equality of scalars, floats compared as numbers. -/
def Scalar.same : Scalar → Scalar → Bool
  | .float a, .float b => Binary.same Binary.binary32 a.toNat b.toNat
  | .double a, .double b => Binary.same Binary.binary64 a.toNat b.toNat
  | a, b => a = b

mutual

/-- Equality of values, floats compared as numbers: zeros are equal and a NaN equals nothing. -/
def Value.same : Value → Value → Bool
  | .scalar a, .scalar b => a.same b
  | .array xs, .array ys => Value.sameItems xs ys
  | .record j xs, .record k ys => j = k && Value.sameFields xs ys
  | _, _ => false

/-- Equality item by item. -/
def Value.sameItems : List Value → List Value → Bool
  | [], [] => true
  | x :: xs, y :: ys => x.same y && Value.sameItems xs ys
  | _, _ => false

/-- Equality field by field. -/
def Value.sameFields : List (String × Value) → List (String × Value) → Bool
  | [], [] => true
  | (m, x) :: xs, (n, y) :: ys => m = n && x.same y && Value.sameFields xs ys
  | _, _ => false

end

end Parley
