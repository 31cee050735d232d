import Parley.Error

/-!
# Wire encodings

An encoding lists, in wire order, how the parts of a value travel. Each entry names the path of the
part it is about, relative to the value its list is about.

* `BaseKind` : the scalars of the wire.
* `EnumTable` : numbers for the keys of an enumeration, with a default for either direction.
* `Encoding` : a part that travels as a scalar, as a counted array or as an enumeration number.
* `Encoding.splitParameter` : an entry of an argument list as one about a single argument.
-/

namespace Parley

/-! ## Scalars of the wire -/

/-- How a scalar travels; integers of the wire have at most four bytes. -/
inductive BaseKind where
  | zcstring
  | int (kind : IntKind) (isNarrow : kind.bytes ≤ 4)
  | float
  | double
  | boolean
  deriving DecidableEq, Repr

namespace BaseKind

/-- One byte without sign. -/
abbrev u8 : BaseKind := int .u8 (by decide)

/-- One byte with sign. -/
abbrev i8 : BaseKind := int .i8 (by decide)

/-- Two bytes without sign. -/
abbrev u16 : BaseKind := int .u16 (by decide)

/-- Two bytes with sign. -/
abbrev i16 : BaseKind := int .i16 (by decide)

/-- Four bytes without sign. -/
abbrev u32 : BaseKind := int .u32 (by decide)

/-- Four bytes with sign. -/
abbrev i32 : BaseKind := int .i32 (by decide)

end BaseKind

/-- The native type a scalar of the wire has. -/
def BaseKind.scalarTy : BaseKind → ScalarTy
  | zcstring => .string
  | int k _ => .int k
  | float => .float
  | double => .double
  | boolean => .bool

/-! ## Enumerations -/

/-- An enumeration: its entries in the order they were made, and what stands in for a key or a
number that has none. -/
structure EnumTable where
  defaultKey : String
  defaultNumber : Int
  entries : List (String × Int)
  deriving DecidableEq, Repr

namespace EnumTable

/-- A table without entries. -/
def empty (defaultKey : String) (defaultNumber : Int) : EnumTable :=
  ⟨defaultKey, defaultNumber, []⟩

/-- The number of a key. -/
def number (t : EnumTable) (key : String) : Int :=
  match t.entries.find? (fun e => e.1 = key) with
  | some e => e.2
  | none => t.defaultNumber

/-- The key of a number. -/
def key (t : EnumTable) (number : Int) : String :=
  match t.entries.find? (fun e => e.2 = number) with
  | some e => e.1
  | none => t.defaultKey

/-- Makes an entry; neither the key nor the number may have one. -/
def insert (t : EnumTable) (key : String) (number : Int) : Except Error EnumTable :=
  if t.entries.any (fun e => e.1 = key || e.2 = number) then .error (.duplicateEntry key number)
  else .ok { t with entries := t.entries ++ [(key, number)] }

end EnumTable

/-! ## Entries -/

/-- How one part of a value travels. -/
inductive Encoding where
  | base (kind : BaseKind) (path : Path)
  | array (path : Path) (element : List Encoding)
  | enum (path : Path) (table : EnumTable)
  deriving Repr

namespace Encoding

/-- The path of the part. -/
def path : Encoding → Path
  | base _ p => p
  | array p _ => p
  | enum p _ => p

/-- The same entry about another part. -/
def withPath (p : Path) : Encoding → Encoding
  | base kind _ => base kind p
  | array _ element => array p element
  | enum _ table => enum p table

/-- The argument an entry of an argument list is about, and the entry relative to it. -/
def splitParameter (e : Encoding) : Except Error (Nat × Encoding) :=
  match e.path with
  | .index i :: rest =>
    if 0 ≤ i then .ok (i.toNat, e.withPath rest) else .error (.noParameterIndex e.path)
  | _ => .error (.noParameterIndex e.path)

end Encoding

end Parley
