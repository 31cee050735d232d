import Parley.Connection.Config
import Parley.Json.Source
import Parley.Mapping.Basic

/-!
# Declarations stored as JSON

Mappings, paths and settings may be kept as JSON text. A record of fields is an object, whose
unknown members are ignored and whose known ones may not be repeated, or an array of the fields in
order. An alternative is an object whose only member is named for it, or, if it carries nothing, a
string. Containers may not nest deeper than in any JSON text, ignored parts excepted.

* `Stored.fields?`, `Stored.alternative?` : the two shapes.
* `Stored.path?`, `Stored.typeMapping?`, `Stored.config?` : what may be stored.
-/

namespace Parley.Stored

/-- The members of an object that have the given names, each at most once. -/
def pick (names : List String) : List (Option String × Source) → Option (List (String × Source))
  | [] => some []
  | (name, s) :: rest => do
    let n ← name
    let others ← pick names rest
    if !names.contains n then return others
    if Table.contains n others then none
    return (n, s) :: others

/-- The fields of a record that are there, in the order of the names. -/
def fields? (names : List String) : Source → Option (List (Option Source))
  | .object members => do
    let found ← pick names members
    return names.map fun n => Table.find? n found
  | .array items =>
    if items.length ≤ names.length then some (names.zipIdx.map fun (_, i) => items[i]?) else none
  | _ => none

/-- The name of an alternative and what it carries. -/
def alternative? : Source → Option (String × Option Source)
  | .object [(some tag, body)] => some (tag, some body)
  | .string (some tag) => some (tag, none)
  | _ => none

/-- A text. -/
def text? : Source → Option String
  | .string s => s
  | _ => none

/-- A signed integer of four bytes. -/
def int32? : Source → Option Int
  | .number t => do
    match ← t.value? with
    | .whole n _ => if IntKind.i32.Holds n then some n else none
    | _ => none
  | _ => none

/-- An array, item by item. -/
def list? {α : Type} (item : Source → Option α) : Source → Option (List α)
  | .array items => items.mapM item
  | _ => none

/-- One step of a path. -/
def step? : Source → Option Step
  | .object [(some "Index", i)] => (int32? i).map .index
  | .object [(some "Name", n)] => (text? n).map .name
  | _ => none

/-- A path within `depth` containers. -/
def path? : Nat → Source → Option Path
  | 0, _ => none
  | 1, .array [] => some []
  | 1, _ => none
  | _ + 2, s => list? step? s

/-- The scalars of the wire by name. -/
def kinds : List (String × BaseKind) :=
  [("ZCString", .zcstring), ("U8", .u8), ("I8", .i8), ("U16", .u16), ("I16", .i16), ("U32", .u32),
   ("I32", .i32), ("Float", .float), ("Double", .double), ("Boolean", .boolean)]

/-- A scalar of the wire within `depth` containers. -/
def kind? (depth : Nat) (s : Source) : Option BaseKind := do
  match ← alternative? s with
  | (tag, none) => Table.find? tag kinds
  | (tag, some .null) => if depth = 0 then none else Table.find? tag kinds
  | _ => none

/-- A pair of a key and a number. -/
def pair? : Source → Option (String × Int)
  | .array [key, n] => do
    let k ← text? key
    return (k, ← int32? n)
  | _ => none

/-- The pairs of an enumeration within `depth` containers. -/
def pairs? : Nat → Source → Option (List (String × Int))
  | 0, _ => none
  | 1, .array [] => some []
  | 1, _ => none
  | _ + 2, s => list? pair? s

/-- An entry of a mapping within the given number of containers. -/
def layout? : Nat → Source → Option MappingEntry
  | depth + 3, s => do
    match ← alternative? s with
    | ("Base", some body) =>
      match ← fields? ["kind", "path"] body with
      | [some kind, some path] =>
        let k ← kind? (depth + 1) kind
        return .base k (← path? (depth + 1) path)
      | _ => none
    | ("Array", some body) =>
      match ← fields? ["path", "element"] body with
      | [some path, some element] =>
        let p ← path? (depth + 1) path
        return .array p (← list? (layout? depth) element)
      | _ => none
    | ("Enum", some body) =>
      match ← fields? ["path", "default_key", "default_value", "values"] body with
      | [some path, some key, some number, some values] =>
        let p ← path? (depth + 1) path
        let k ← text? key
        let n ← int32? number
        return .enum p k n (← pairs? (depth + 1) values)
      | _ => none
    | _ => none
  | _, _ => none

/-- A mapping. -/
def typeMapping? (s : Source) : Option TypeMapping := do
  match ← fields? ["args", "result"] s with
  | [some args, some result] =>
    let a ← list? (layout? (Source.maxDepth - 2)) args
    return ⟨a, ← list? (layout? (Source.maxDepth - 2)) result⟩
  | _ => none

/-- Settings; those that are missing have their defaults. -/
def config? (s : Source) : Option Config := do
  match ← fields? ["one_way_functions", "close_reason"] s with
  | [functions, reason] =>
    let f ← match functions with
      | some f => list? text? f
      | none => some Config.default.oneWayFunctions
    match reason with
    | some r => return ⟨f, ← text? r⟩
    | none => return ⟨f, Config.default.closeReason⟩
  | _ => none

end Parley.Stored
