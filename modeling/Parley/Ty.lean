import Parley.Integer

/-!
# Native types

The type of a value a native function takes or returns: a scalar, an array, or a record given by a
table of fields. A record has value semantics (every holder has a copy) or reference semantics
(holders share it).

* `ScalarTy`, `RecordKind`, `Ty` : the types.
* `Ty.text` : the name of a type in messages.
* `Ty.field?` : the type of a field; of two fields with one name the first.
-/

namespace Parley

/-- Types without parts. -/
inductive ScalarTy where
  | nil
  | bool
  | int (kind : IntKind)
  | float
  | double
  | string
  deriving DecidableEq, Repr

/-- How the holders of a record relate: each has a copy, or all share it. -/
inductive RecordKind where
  | value
  | reference
  deriving DecidableEq, Repr

/-- A native type. -/
inductive Ty where
  | scalar (s : ScalarTy)
  | array (element : Ty)
  | record (kind : RecordKind) (name : String) (fields : List (String × Ty))
  deriving Repr

namespace Ty

/-- The type of the value that says nothing. -/
@[match_pattern] abbrev nil : Ty := .scalar .nil

/-- The type of truth values. -/
@[match_pattern] abbrev bool : Ty := .scalar .bool

/-- The type of the integers of a kind. -/
@[match_pattern] abbrev int (k : IntKind) : Ty := .scalar (.int k)

/-- The type of texts. -/
@[match_pattern] abbrev string : Ty := .scalar .string

instance : Inhabited Ty := ⟨nil⟩

end Ty

/-- The name of a scalar type. -/
def ScalarTy.text : ScalarTy → String
  | .nil => "Nil"
  | .bool => "Bool"
  | .int k => k.name
  | .float => "Float"
  | .double => "Double"
  | .string => "String"

namespace Ty

/-- The name of a type: an array is its element with brackets, a record goes by its name. -/
def text : Ty → String
  | scalar s => s.text
  | array element => element.text ++ "[]"
  | record _ name _ => name

/-- The type of a field in a table of fields. -/
def lookup (field : String) : List (String × Ty) → Option Ty
  | [] => none
  | (n, t) :: rest => if n = field then some t else lookup field rest

/-- The name and the fields of a record. -/
def record? : Ty → Option (String × List (String × Ty))
  | record _ name fields => some (name, fields)
  | _ => none

/-- The type of a field of a record. -/
def field? (t : Ty) (field : String) : Option Ty :=
  t.record?.bind fun r => lookup field r.2

end Ty

end Parley
