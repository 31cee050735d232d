import Parley.Text.Quoted

/-!
# Bytes in hexadecimal

* `Hex.encode`, `Hex.decode?` : two lower-case digits per byte.
-/

namespace Parley.Hex

/-- The two digits of a byte. -/
def byte (b : UInt8) : List Char :=
  [Nat.digitChar (b.toNat / 16), Nat.digitChar (b.toNat % 16)]

/-- The digits of a list of bytes. -/
def encode (bytes : List UInt8) : String :=
  String.ofList (bytes.flatMap byte)

/-- The value of a digit. -/
def digit? (c : Char) : Option Nat :=
  if '0' ≤ c ∧ c ≤ '9' then some (c.toNat - '0'.toNat)
  else if 'a' ≤ c ∧ c ≤ 'f' then some (c.toNat - 'a'.toNat + 10)
  else none

/-- The bytes of a list of digits. -/
def bytes? : List Char → Option (List UInt8)
  | [] => some []
  | h :: l :: rest => do
    let b := UInt8.ofNat ((← digit? h) * 16 + (← digit? l))
    return b :: (← bytes? rest)
  | [_] => none

/-- The bytes that a text of digits stands for. -/
def decode? (s : String) : Option (List UInt8) :=
  bytes? s.toList

end Parley.Hex
