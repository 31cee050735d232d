import Parley.Json.Basic

/-!
# Numbers of JSON text

A number without point and exponent that has 64 bits is a whole number; minus zero and every other
number is a double. The digits that fit 64 bits make the significand, which is rounded to a double
and then multiplied or divided by a rounded power of ten; a number too large for a double has no
value.

* `NumberText` : the parts of a number as it is written.
* `NumberText.value?` : the JSON value of a number.
-/

namespace Parley

/-- A number as it is written: digits before and after the point, and the exponent with whether it
is negative. -/
structure NumberText where
  negative : Bool
  whole : List Nat
  fraction : List Nat
  exponent : Option (Bool × List Nat)
  deriving DecidableEq, Repr

namespace NumberText

/-- Enters digits while the significand keeps to 64 bits; yields those left over as well. -/
def enter (significand : Nat) : List Nat → Nat × List Nat
  | [] => (significand, [])
  | d :: rest =>
    if significand * 10 + d < IntKind.u64.modulus then enter (significand * 10 + d) rest
    else (significand, d :: rest)

/-- The number of a list of digits. -/
def number (digits : List Nat) : Nat :=
  digits.foldl (fun n d => n * 10 + d) 0

/-- The bits of the double nearest to a power of ten. -/
def powerOfTen (e : Nat) : Nat :=
  Binary.ofInt Binary.binary64 (tenPow e)

/-- A positive double times a power of ten, in steps that a rounded power of ten can take. -/
def scale (bits : Nat) (e : Int) : Nat → Option Nat
  | 0 => some 0
  | fuel + 1 =>
    if e.natAbs ≤ 308 then
      if 0 ≤ e then
        let r := Binary.mul Binary.binary64 bits (powerOfTen e.natAbs)
        if Binary.isFinite Binary.binary64 r then some r else none
      else some (Binary.div Binary.binary64 bits (powerOfTen e.natAbs))
    else if bits = 0 then some 0
    else if 0 ≤ e then none
    else scale (Binary.div Binary.binary64 bits (powerOfTen 308)) (e + 308) fuel

/-- The double of a significand and a decimal exponent; three divisions bring any of 64 bits to
zero. -/
def double? (negative : Bool) (significand : Nat) (e : Int) : Option Json :=
  match scale (Binary.ofInt Binary.binary64 significand) e 4 with
  | none => none
  | some r =>
    let bits := UInt64.ofNat (r + if negative then Binary.binary64.signBit else 0)
    if h : IsFiniteDouble bits then some (.float bits h) else none

/-- The value of a number, if a double can hold it. -/
def value? (t : NumberText) : Option Json :=
  let (high, excess) := enter 0 t.whole
  match t.fraction, t.exponent with
  | [], none =>
    let n : Int := if t.negative then -(high : Int) else high
    if h : excess = [] ∧ IsWhole n ∧ ¬(t.negative ∧ n = 0) then some (.whole n h.2.1)
    else double? t.negative high excess.length
  | fraction, exponent =>
    let (significand, dropped) := enter high fraction
    let e : Int := excess.length - (fraction.length - dropped.length : Nat)
    match exponent with
    | none => double? t.negative significand e
    | some (down, digits) =>
      let given := number digits
      if IntKind.i32.Holds given then
        double? t.negative significand (if down then e - given else e + given)
      else if significand ≠ 0 ∧ !down then none
      else double? t.negative 0 0

end NumberText

end Parley
