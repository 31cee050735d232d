import Parley.Error
import Parley.Wire.Bytes

/-!
# Reading bytes

A cursor walks over a buffer: how far it has come and what is left. A read that fails leaves the
cursor where it was.

* `Cursor`, `Reader` : the position, and computations that move it.
* `Reader.take` : a fixed number of bytes.
* `Reader.integer`, `Reader.float`, `Reader.double`, `Reader.boolean`, `Reader.zcstring` : scalars.
-/

namespace Parley

/-- A position in a buffer: the bytes before it are counted, those after it are listed. -/
structure Cursor where
  offset : Nat
  rest : List UInt8
  deriving DecidableEq, Repr

/-- The start of a buffer. -/
def Cursor.start (data : List UInt8) : Cursor :=
  ⟨0, data⟩

/-- How many bytes are left. -/
def Cursor.remaining (c : Cursor) : Nat :=
  c.rest.length

/-- A computation that moves a cursor, also when it fails. -/
abbrev Reader := ExceptT Error (StateM Cursor)

/-- The first `n` bytes and the others, if there are `n`. -/
def splitBytes : Nat → List UInt8 → Option (List UInt8 × List UInt8)
  | 0, bytes => some ([], bytes)
  | _ + 1, [] => none
  | n + 1, b :: bytes => (splitBytes n bytes).map fun (front, rest) => (b :: front, rest)

theorem splitBytes_append (front rest : List UInt8) :
    splitBytes front.length (front ++ rest) = some (front, rest) := by
  induction front with
  | nil => rfl
  | cons b front ih => rw [List.cons_append, List.length_cons, splitBytes, ih]; rfl

theorem splitBytes_eq_some {n : Nat} {bytes front rest : List UInt8}
    (h : splitBytes n bytes = some (front, rest)) : front.length = n ∧ bytes = front ++ rest := by
  induction n generalizing bytes front with
  | zero =>
    obtain ⟨rfl, rfl⟩ := Prod.mk.inj (Option.some.inj h)
    exact ⟨rfl, rfl⟩
  | succ n ih =>
    match bytes, h with
    | b :: bytes, h =>
      obtain ⟨⟨f, r⟩, hs, he⟩ := Option.map_eq_some_iff.1 h
      obtain ⟨rfl, rfl⟩ := Prod.mk.inj he
      obtain ⟨hl, rfl⟩ := ih hs
      exact ⟨by rw [List.length_cons, hl], rfl⟩

/-- The units before the first zero unit, and the bytes after it. -/
def splitUnits : List UInt8 → Option (List UInt16 × List UInt8)
  | low :: high :: bytes =>
    let unit := ofLittleEndian [low, high]
    if unit = 0 then some ([], bytes)
    else (splitUnits bytes).map fun (units, rest) => (UInt16.ofNat unit :: units, rest)
  | _ => none

namespace Reader

/-- Runs a reader at a cursor. -/
def run {α : Type} (r : Reader α) (c : Cursor) : Except Error α × Cursor :=
  (ExceptT.run r).run c

/-- Yields what a computation yields, or fails with its error, without reading. -/
def ofExcept {α : Type} (x : Except Error α) : Reader α :=
  fun c => (x, c)

instance : MonadLift (Except Error) Reader := ⟨ofExcept⟩

/-- Where the cursor is. -/
def cursor : Reader Cursor :=
  fun c => (.ok c, c)

/-- Takes `n` bytes. -/
def take (n : Nat) : Reader (List UInt8) := fun c =>
  match splitBytes n c.rest with
  | some (front, rest) => (.ok front, ⟨c.offset + n, rest⟩)
  | none => (.error (.endOfData c.offset n), c)

/-- Reads an integer. -/
def integer (k : IntKind) : Reader Integer := do
  return Integer.ofBits k (ofLittleEndian (← take k.bytes))

/-- Reads an unsigned number of four bytes. -/
def word : Reader Nat := do
  return ofLittleEndian (← take 4)

/-- Reads the bits of a float. -/
def float : Reader UInt32 := do
  return UInt32.ofNat (ofLittleEndian (← take 4))

/-- Reads the bits of a double. -/
def double : Reader UInt64 := do
  return UInt64.ofNat (ofLittleEndian (← take 8))

/-- Reads a truth value: any byte but zero is true. -/
def boolean : Reader Bool := do
  return ofLittleEndian (← take 1) ≠ 0

/-- Reads a text up to its zero unit. Without one, the error is that of the unit that the data ends
in. -/
def zcstring : Reader String := fun c =>
  match splitUnits c.rest with
  | some (units, rest) => (.ok (Utf16.decode units), ⟨c.offset + 2 * units.length + 2, rest⟩)
  | none => (.error (.endOfData (c.offset + 2 * (c.rest.length / 2)) 2), c)

end Reader

end Parley
