import Parley.Encoding
import Parley.Value.Access
import Parley.Wire.Bytes

/-!
# Writing values

The parts of a value that an encoding names are written in its order. Writing stops at the first
error; the bytes before it stay written.

* `Emission` : bytes written, and the error that ended the writing if there was one.
* `castBytes`, `entryBytes` : a scalar of the wire and an enumeration number.
* `Encoding.write`, `encode` : a value.
* `encodeArguments` : an argument list.
-/

namespace Parley

/-- Bytes written, and why the writing stopped early if it did. -/
structure Emission where
  bytes : List UInt8
  error : Option Error

namespace Emission

/-- Writes bytes. -/
def ofBytes (bytes : List UInt8) : Emission :=
  ⟨bytes, none⟩

/-- Stops. -/
def fail (e : Error) : Emission :=
  ⟨[], some e⟩

/-- Writes nothing. -/
def nothing : Emission :=
  ⟨[], none⟩

/-- Goes on with `b` unless `a` stopped. -/
def andThen (a b : Emission) : Emission :=
  match a.error with
  | some _ => a
  | none => ⟨a.bytes ++ b.bytes, b.error⟩

theorem andThen_nothing (a : Emission) : a.andThen nothing = a := by
  obtain ⟨bytes, _ | e⟩ := a
  · simp [andThen, nothing]
  · rfl

/-- Writes what a computation yields, or stops with its error. -/
def ofExcept : Except Error Emission → Emission
  | .ok a => a
  | .error e => fail e

/-- The bytes of a writing that went through. -/
def toExcept (a : Emission) : Except Error (List UInt8) :=
  match a.error with
  | some e => .error e
  | none => .ok a.bytes

end Emission

/-- The bytes of a scalar; a text may not hold the zero unit that would close it. -/
def scalarBytes (s : Scalar) : Except Error (List UInt8) :=
  match s with
  | .string text => if text.toList.contains '\x00' then .error (.zeroUnit text) else .ok s.toBytes
  | _ => .ok s.toBytes

/-- The bytes of a value cast to a scalar type. -/
def castBytes (t : ScalarTy) (v : Value) : Except Error (List UInt8) := do
  scalarBytes (← (castScalar t v).mapError .mismatch)

/-- The bytes of a value as a number of an enumeration, four of them in two's complement: a key by
the table, an integer as it is. -/
def entryBytes (table : EnumTable) : Value → Except Error (List UInt8)
  | .string key => .ok (littleEndian 4 (table.number key % IntKind.u32.modulus).toNat)
  | v => castBytes (.int .i32) v

mutual

/-- Writes the part an entry names. -/
def Encoding.write : Encoding → Value → Emission
  | .base kind path, v => .ofExcept do
    return .ofBytes (← castBytes kind.scalarTy (← v.get path))
  | .array path element, v => .ofExcept do
    match ← v.get path with
    | .array items =>
      if items.length < IntKind.u32.modulus then
        return items.foldr (fun item after => (encode element item).andThen after) .nothing
          |> (Emission.ofBytes (littleEndian 4 items.length)).andThen
      throw (.arrayTooLong items.length)
    | w => throw (.arrayExpected w)
  | .enum path table, v => .ofExcept do
    return .ofBytes (← entryBytes table (← v.get path))
termination_by structural e => e

/-- Writes the parts a list of entries names. -/
def encode : List Encoding → Value → Emission
  | [], _ => .nothing
  | e :: rest, v => (e.write v).andThen (encode rest v)
termination_by structural encoding => encoding

end

/-- Writes an argument list: each entry names the argument its part belongs to. -/
def encodeArguments : List Encoding → List Value → Emission
  | [], _ => .nothing
  | e :: rest, args =>
    let first : Except Error Emission := do
      let (i, own) ← e.splitParameter
      match args[i]? with
      | some arg => return encode [own] arg
      | none => throw (.argumentNotGiven i args.length)
    (Emission.ofExcept first).andThen (encodeArguments rest args)

end Parley
