import Parley.Error

/-!
# Parts of values and types

Paths lead into values and, in the same way, into types: a position into the element type of an
array type, a name into the type of a field.

* `Ty.element`, `Ty.field`, `Ty.follow` : the type at a path.
* `Value.member`, `Value.get` : the part at a path.
* `Value.setMember`, `Value.set` : the value with another part at a path.
-/

namespace Parley

/-! ## Types -/

namespace Ty

/-- The element type of an array type. -/
def element : Ty → Except Error Ty
  | array t => .ok t
  | t => .error (.notArray t)

/-- The type of a field of a record type. -/
def field (t : Ty) (name : String) : Except Error Ty :=
  match t.record? with
  | none => .error (.notRecord t name)
  | some (owner, table) =>
    match lookup name table with
    | some u => .ok u
    | none => .error (.undeclaredField owner name)

/-- The type one step into a type. -/
def step (t : Ty) : Step → Except Error Ty
  | .index _ => t.element
  | .name n => t.field n

/-- The type at a path. -/
def follow (t : Ty) : Path → Except Error Ty
  | [] => .ok t
  | s :: p => do (← t.step s).follow p

end Ty

/-! ## Values -/

/-- A position as one in a list. -/
def position (i : Int) : Except Error Nat :=
  if i < 0 then .error (.negativeIndex i) else .ok i.toNat

namespace Value

/-- The part one step into a value. -/
def member : Value → Step → Except Error Value
  | array items, .index i => do
    match items[← position i]? with
    | some v => return v
    | none => throw (.outOfBounds i items.length)
  | record _ fields, .name n =>
    match Table.find? n fields with
    | some v => .ok v
    | none => .error (.noField n)
  | v, s => .error (.wrongContainer s v)

/-- The part at a path. -/
def get (v : Value) : Path → Except Error Value
  | [] => .ok v
  | s :: p => do (← v.member s).get p

/-- The value with `x` for the part one step into it. -/
def setMember (v : Value) (s : Step) (x : Value) : Except Error Value :=
  match v, s with
  | array items, .index i => do
    let k ← position i
    if k < items.length then return array (items.set k x)
    throw (.outOfBounds i items.length)
  | record kind fields, .name n =>
    match Table.set? n x fields with
    | some fields' => .ok (record kind fields')
    | none => .error (.noField n)
  | v, s => .error (.wrongContainer s v)

/-- The value with `x` for the part at a path. -/
def set (v : Value) (x : Value) : Path → Except Error Value
  | [] => .ok x
  | s :: p => do v.setMember s (← (← v.member s).set x p)

end Value

end Parley
