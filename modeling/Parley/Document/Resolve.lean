import Parley.Document.Basic

/-!
# Native types of declared names

A type name stands for a native type: `[]` at its end makes an array, base names stand for
themselves, a declared structure is a record with value semantics, an enumeration travels as the
text of its key, and a declared array is one. Declarations may be recursive, so levels are counted.

* `baseType?` : the base names.
* `Document.resolve` : the native type of a name.
-/

namespace Parley

/-- The type of a base name. -/
def baseType? : String → Option Ty
  | "boolean" => some .bool
  | "i8" => some (.int .i8)
  | "u8" => some (.int .u8)
  | "i16" => some (.int .i16)
  | "u16" => some (.int .u16)
  | "i32" => some (.int .i32)
  | "u32" => some (.int .u32)
  | "i64" => some (.int .i64)
  | "u64" => some (.int .u64)
  | "float" => some (.scalar .float)
  | "double" => some (.scalar .double)
  | "string" => some .string
  | "void" => some .nil
  | _ => none

/-- The element name of a name that ends in `[]`. -/
def elementName? (name : String) : Option String :=
  match name.toList.reverse with
  | ']' :: '[' :: rest => some (String.ofList rest.reverse)
  | _ => none

namespace Document

/-- The native type of a name that may nest `levels - 1` levels deep. -/
def resolveWithin (d : Document) : Nat → String → Except Error Ty
  | 0, name => .error (.nestedTooDeep name)
  | levels + 1, name =>
    match elementName? name with
    | some element => do
      return .array (← d.resolveWithin levels element)
    | none =>
      match baseType? name with
      | some t => .ok t
      | none =>
        match Table.find? name d.types with
        | some (.struct fields) => do
          return .record .value name (← fields.mapM fun f => do
            return (f.1, ← d.resolveWithin levels f.2))
        | some (.enum _) => .ok .string
        | some (.array element) => do
          return .array (← d.resolveWithin levels element)
        | none => .error (.unknownType name)

/-- The native type of a name. -/
def resolve (d : Document) (name : String) : Except Error Ty :=
  d.resolveWithin (maxTypeDepth + 1) name

end Document

end Parley
