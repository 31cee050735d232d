import Parley.Text.Utf16
import Parley.Value.Basic

/-!
# Bytes of scalars

Numbers travel in two's complement with the least significant byte first, texts as UTF-16 units
closed by a zero unit.

* `littleEndian`, `ofLittleEndian` : a number in a given number of bytes and back;
  `littleEndian_ofLittleEndian` : bytes are those of their number.
* `Integer.toBytes` : the bytes of an integer.
* `zeroTerminated` : the bytes of a text.
* `Scalar.toBytes` : the bytes of any scalar.
-/

namespace Parley

/-- The `count` lowest bytes of a number, least significant first. -/
def littleEndian : Nat → Nat → List UInt8
  | 0, _ => []
  | count + 1, n => UInt8.ofNat (n % 256) :: littleEndian count (n / 256)

/-- The number that bytes, least significant first, stand for. -/
def ofLittleEndian : List UInt8 → Nat
  | [] => 0
  | b :: rest => b.toNat + 256 * ofLittleEndian rest

theorem length_littleEndian (count n : Nat) : (littleEndian count n).length = count := by
  induction count generalizing n with
  | zero => rfl
  | succ count ih => rw [littleEndian, List.length_cons, ih]

theorem littleEndian_ofLittleEndian (bytes : List UInt8) :
    littleEndian bytes.length (ofLittleEndian bytes) = bytes := by
  induction bytes with
  | nil => rfl
  | cons b rest ih =>
    have hb := b.toNat_lt
    have h1 : (b.toNat + 256 * ofLittleEndian rest) % 256 = b.toNat := by omega
    have h2 : (b.toNat + 256 * ofLittleEndian rest) / 256 = ofLittleEndian rest := by omega
    rw [ofLittleEndian, List.length_cons, littleEndian, h1, h2, ih, UInt8.ofNat_toNat]

/-- The bytes of an integer. -/
def Integer.toBytes (n : Integer) : List UInt8 :=
  littleEndian n.kind.bytes n.toBits

/-- The bytes of a text, closed by a zero unit. -/
def zeroTerminated (s : String) : List UInt8 :=
  (Utf16.encode s).flatMap (fun u => littleEndian 2 u.toNat) ++ [0, 0]

/-- The bytes of a scalar. -/
def Scalar.toBytes : Scalar → List UInt8
  | .nil => []
  | .bool b => [if b then 1 else 0]
  | .int n => n.toBytes
  | .float bits => littleEndian 4 bits.toNat
  | .double bits => littleEndian 8 bits.toNat
  | .string s => zeroTerminated s

end Parley
