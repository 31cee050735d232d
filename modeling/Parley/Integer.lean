/-!
# Fixed-width integers

Eight kinds of integer, each with its range. An `Integer` carries its kind and the proof that its
value is in range.

* `IntKind` : the kinds, with `bytes`, `min` and `max`.
* `Integer` : a value of some kind.
* `Integer.ofInt?` : the integer of a kind with a given value, if the value is in range.
* `Integer.toBits`, `Integer.ofBits` : two's complement.
-/

namespace Parley

/-- Width and signedness. -/
inductive IntKind where
  | u8 | i8 | u16 | i16 | u32 | i32 | u64 | i64
  deriving DecidableEq, Repr

namespace IntKind

/-- Bytes a value takes. -/
def bytes : IntKind → Nat
  | u8 | i8 => 1
  | u16 | i16 => 2
  | u32 | i32 => 4
  | u64 | i64 => 8

/-- Whether negative values belong. -/
def signed : IntKind → Bool
  | u8 | u16 | u32 | u64 => false
  | i8 | i16 | i32 | i64 => true

/-- The number of values of the kind. -/
def modulus : IntKind → Nat
  | u8 | i8 => 0x100
  | u16 | i16 => 0x10000
  | u32 | i32 => 0x100000000
  | u64 | i64 => 0x10000000000000000

/-- The least value. -/
def min (k : IntKind) : Int :=
  if k.signed then -(k.modulus / 2 : Nat) else 0

/-- The greatest value. -/
def max (k : IntKind) : Int :=
  if k.signed then (k.modulus / 2 : Nat) - 1 else (k.modulus : Int) - 1

/-- Whether `n` is in range. -/
def Holds (k : IntKind) (n : Int) : Prop :=
  k.min ≤ n ∧ n ≤ k.max

instance (k : IntKind) (n : Int) : Decidable (k.Holds n) :=
  inferInstanceAs (Decidable (_ ∧ _))

theorem holds_zero (k : IntKind) : k.Holds 0 := by
  cases k <;> decide

/-- The name of the kind in messages. -/
def name : IntKind → String
  | u8 => "U8"
  | i8 => "I8"
  | u16 => "U16"
  | i16 => "I16"
  | u32 => "U32"
  | i32 => "I32"
  | u64 => "U64"
  | i64 => "I64"

end IntKind

/-- A value of a kind of integer. -/
structure Integer where
  kind : IntKind
  val : Int
  inRange : kind.Holds val
  deriving DecidableEq, Repr

namespace Integer

/-- Zero of a kind. -/
def zero (k : IntKind) : Integer :=
  ⟨k, 0, k.holds_zero⟩

/-- `n` as an integer of kind `k`, if it is in range. -/
def ofInt? (k : IntKind) (n : Int) : Option Integer :=
  if h : k.Holds n then some ⟨k, n, h⟩ else none

/-- Two's complement, as a number below `kind.modulus`. -/
def toBits (n : Integer) : Nat :=
  (n.val % (n.kind.modulus : Int)).toNat

/-- The value of `kind` that two's complement bits stand for. -/
def valueOfBits (k : IntKind) (bits : Nat) : Int :=
  let r := bits % k.modulus
  if k.signed ∧ k.modulus / 2 ≤ r then (r : Int) - k.modulus else r

theorem holds_valueOfBits (k : IntKind) (bits : Nat) : k.Holds (valueOfBits k bits) := by
  cases k <;> simp [valueOfBits, IntKind.Holds, IntKind.min, IntKind.max, IntKind.signed,
    IntKind.modulus]
  case u8 | u16 | u32 | u64 => omega
  all_goals constructor <;> split <;> omega

/-- Reads two's complement bits, those above the width dropped. -/
def ofBits (k : IntKind) (bits : Nat) : Integer :=
  ⟨k, valueOfBits k bits, holds_valueOfBits k bits⟩

end Integer

end Parley
