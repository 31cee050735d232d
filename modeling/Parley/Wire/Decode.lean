import Parley.Sketch
import Parley.Wire.Reader

/-!
# Reading values

A value of a native type is constructed for its encoding and then filled in: each entry reads its
part from the bytes and stores it, cast to the type at its path.

* `decodeScalar` : one scalar of the wire.
* `Encoding.read`, `fill` : storing what the bytes say into a value.
* `decode` : a value.
* `decodeArguments` : an argument list.
-/

namespace Parley

/-- Reads a scalar of the wire. -/
def decodeScalar : BaseKind → Reader Scalar
  | .zcstring => return .string (← Reader.zcstring)
  | .int k _ => return .int (← Reader.integer k)
  | .float => return .float (← Reader.float)
  | .double => return .double (← Reader.double)
  | .boolean => return .bool (← Reader.boolean)

/-- The value of an enumeration number in a part of type `t`: the key for a text, the number for
anything else, taken without its sign if that fits and with it if not. -/
def enumValue (table : EnumTable) (t : Ty) (bits : Nat) : Except Error Value :=
  let signed := Integer.ofBits .i32 bits
  match t with
  | .string => .ok (.string (table.key signed.val))
  | t =>
    match cast t (.int (Integer.ofBits .u32 bits)) with
    | .ok v => .ok v
    | .error _ => (cast t (.int signed)).mapError .mismatch

mutual

/-- Reads the part an entry names and stores it. -/
def Encoding.read : Encoding → Ty → Value → Reader Value
  | .base kind path, t, v => do
    let target ← t.follow path
    let s ← decodeScalar kind
    let w ← (cast target (.scalar s)).mapError Error.mismatch
    v.set w path
  | .array path element, t, v => do
    let target ← t.follow path
    let count ← Reader.word
    let c ← Reader.cursor
    -- an element of an encoding with entries takes a byte or more
    if !element.isEmpty && c.remaining < count then throw (.endOfData c.offset count)
    let u ← target.element
    let items ← constructItems target element count
    v.set (.array (← items.mapM fun item => fill element u item)) path
  | .enum path table, t, v => do
    let target ← t.follow path
    let bits ← Reader.word
    v.set (← enumValue table target bits) path
termination_by structural e => e

/-- Reads the parts a list of entries names and stores them. -/
def fill : List Encoding → Ty → Value → Reader Value
  | [], _, v => return v
  | e :: rest, t, v => do fill rest t (← e.read t v)
termination_by structural encoding => encoding

end

/-- Reads a value. -/
def decode (encoding : List Encoding) (t : Ty) : Reader Value := do
  fill encoding t (← construct encoding t)

/-- Reads the entries of an argument list into the arguments. -/
def fillArguments (types : List Ty) : List (Nat × Encoding) → List Value → Reader (List Value)
  | [], args => return args
  | (i, e) :: rest, args =>
    match args[i]?, types[i]? with
    | some arg, some t => do fillArguments types rest (args.set i (← fill [e] t arg))
    | _, _ => throw (.parameterNotTaken i types.length)

/-- The arguments before anything is read: each is constructed for the entries about it. -/
def constructArguments (entries : List (Nat × Encoding)) (types : List Ty) :
    Except Error (List Value) :=
  types.zipIdx.mapM fun (t, i) => construct ((entries.filter (·.1 = i)).map Prod.snd) t

/-- Reads an argument list: each entry names the argument its part belongs to. -/
def decodeArguments (encoding : List Encoding) (types : List Ty) : Reader (List Value) := do
  let entries ← Reader.ofExcept (encoding.mapM Encoding.splitParameter)
  let args ← constructArguments entries types
  fillArguments types entries args

end Parley
