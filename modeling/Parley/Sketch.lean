import Parley.Encoding
import Parley.Value.Access

/-!
# Sketches

Before a value is read it is allocated, just large enough for every path of its encoding. The paths
are merged into a sketch that follows the native type; the sketch then becomes a value whose
untouched parts are defaults.

* `Sketch` : a type with the places that paths lead through.
* `Sketch.add`, `Sketch.ofEncoding` : merging paths.
* `Sketch.build` : the value of a sketch.
* `construct`, `constructItems` : a value, or the items of an array, for an encoding.
-/

namespace Parley

/-- A native type and, where paths enter it, the parts they lead to. An array is as long as the
highest position any path uses. -/
inductive Sketch where
  | leaf (type : Ty)
  | array (type : Ty) (size : Nat) (elements : List (Nat × Sketch))
  | record (type : Ty) (fields : List (String × Sketch))
  deriving Repr

namespace Sketch

/-- The type of the sketched value. -/
def type : Sketch → Ty
  | leaf t => t
  | array t .. => t
  | record t _ => t

/-- The length of a sketched array. -/
def size? : Sketch → Option Nat
  | array _ n _ => some n
  | _ => none

/-- The sketch of an element that some path enters. -/
def element? (s : Sketch) (i : Nat) : Option Sketch :=
  match s with
  | array _ _ elements => Table.find? i elements
  | _ => none

/-- The sketch of a field that some path enters. -/
def field? (s : Sketch) (n : String) : Option Sketch :=
  match s with
  | record _ fields => Table.find? n fields
  | _ => none

/-- Names the whole path in an error about one of its steps. -/
def blame {α : Type} (full : Path) : Except Error α → Except Error α
  | .error e => .error (.inPath full e)
  | r => r

/-- Merges the rest of the path `full` into a sketch. -/
def add (full : Path) : Path → Sketch → Except Error Sketch
  | [], s => .ok s
  | .index i :: rest, s => do
    let (size, elements) ← match s with
      | leaf _ => pure (0, [])
      | array _ size elements => pure (size, elements)
      | record t _ => throw (.mixedSteps full t)
    let t ← blame full s.type.element
    let k ← position i
    let child ← add full rest ((Table.find? k elements).getD (leaf t))
    return array s.type (max size (k + 1)) (Table.insert k child elements)
  | .name n :: rest, s => do
    let fields ← match s with
      | leaf _ => pure []
      | record _ fields => pure fields
      | array t .. => throw (.mixedSteps full t)
    let t ← blame full (s.type.field n)
    let child ← add full rest ((Table.find? n fields).getD (leaf t))
    return record s.type (Table.insert n child fields)

/-- Merges the paths of a list of entries into a sketch of a type. -/
def ofEncoding (encoding : List Encoding) (t : Ty) : Except Error Sketch :=
  encoding.foldlM (fun s e => add e.path e.path s) (leaf t)

mutual

/-- The value of a sketch. -/
def build : Sketch → Except Error Value
  | leaf t => .ok t.default
  | array t size elements => do
    let u ← t.element
    let given ← buildElements elements
    return .array ((List.range size).map fun i => (Table.find? i given).getD u.default)
  | record t fields => do
    (← buildFields fields).foldlM (fun v f => v.setMember (.name f.1) f.2) t.default

/-- The values of the elements that paths enter. -/
def buildElements : List (Nat × Sketch) → Except Error (List (Nat × Value))
  | [] => .ok []
  | (i, s) :: rest => do
    let v ← s.build
    return (i, v) :: (← buildElements rest)

/-- The values of the fields that paths enter. -/
def buildFields : List (String × Sketch) → Except Error (List (String × Value))
  | [] => .ok []
  | (n, s) :: rest => do
    let v ← s.build
    return (n, v) :: (← buildFields rest)

end

end Sketch

/-- The smallest value of a type that has every path of an encoding. -/
def construct (encoding : List Encoding) (t : Ty) : Except Error Value := do
  (← Sketch.ofEncoding encoding t).build

/-- `count` items of an array type, each with every path of the encoding of an element. -/
def constructItems (t : Ty) (element : List Encoding) (count : Nat) :
    Except Error (List Value) := do
  let sketch ← Sketch.ofEncoding element (← t.element)
  if count = 0 then return []
  return List.replicate count (← sketch.build)

end Parley
