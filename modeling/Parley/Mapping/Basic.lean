import Parley.Encoding

/-!
# Type mappings

A type mapping declares how the arguments and the result of a function are laid out. It goes by an
identifier and is compiled to encodings before use.

* `MappingEntry`, `TypeMapping` : the declarations.
* `MappingEntry.compile`, `compileAll` : entries as encodings.
* `Mappings` : mappings by identifier, with `define` and `compile`.
-/

namespace Parley

/-- A declared entry: like an encoding, with the pairs of an enumeration as they were written. -/
inductive MappingEntry where
  | base (kind : BaseKind) (path : Path)
  | array (path : Path) (element : List MappingEntry)
  | enum (path : Path) (defaultKey : String) (defaultNumber : Int) (pairs : List (String × Int))
  deriving Repr

/-- The layout of a function's arguments and of its result. -/
structure TypeMapping where
  args : List MappingEntry
  result : List MappingEntry
  deriving Repr

/-- The encodings of a function's arguments and of its result. -/
structure FunctionEncoding where
  args : List Encoding
  result : List Encoding
  deriving Repr

/-- The path of an entry. -/
def MappingEntry.path : MappingEntry → Path
  | base _ p => p
  | array p _ => p
  | enum p .. => p

/-- Whether an entry of an argument list says which argument it is about. -/
def MappingEntry.selectsParameter (e : MappingEntry) : Bool :=
  match e.path with
  | .index i :: _ => 0 ≤ i
  | _ => false

/-- The table of an enumeration with the given pairs. -/
def EnumTable.ofPairs (defaultKey : String) (defaultNumber : Int) (pairs : List (String × Int)) :
    Except Error EnumTable :=
  pairs.foldlM (fun t e => t.insert e.1 e.2) (EnumTable.empty defaultKey defaultNumber)

mutual

/-- An entry as an encoding. -/
def MappingEntry.compile : MappingEntry → Except Error Encoding
  | .base kind path => .ok (.base kind path)
  | .array path element => do
    return .array path (← compileAll element)
  | .enum path defaultKey defaultNumber pairs => do
    return .enum path (← EnumTable.ofPairs defaultKey defaultNumber pairs)

/-- A list of entries as encodings. -/
def compileAll : List MappingEntry → Except Error (List Encoding)
  | [] => .ok []
  | e :: rest => do
    let first ← e.compile
    return first :: (← compileAll rest)

end

/-- Type mappings by identifier. -/
abbrev Mappings := List (String × TypeMapping)

namespace Mappings

/-- Declares a mapping, in place of an earlier one of the same name. -/
def define (m : Mappings) (id : String) (mapping : TypeMapping) : Mappings :=
  Table.insert id mapping m

/-- The encodings of the mapping that goes by `id`. -/
def compile (m : Mappings) (id : String) : Except Error FunctionEncoding := do
  match Table.find? id m with
  | none => throw (.unknownMapping id)
  | some mapping =>
    match mapping.args.find? (fun e => !e.selectsParameter) with
    | some e => throw (.noParameterSelected id e.path)
    | none =>
      let args ← compileAll mapping.args
      return ⟨args, ← compileAll mapping.result⟩

end Mappings

end Parley
