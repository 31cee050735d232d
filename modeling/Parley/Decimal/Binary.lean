/-!
# Binary floating point in exact arithmetic

A binary format is given by its precision and the width of its exponent field. Bits are read as a
signed integer times a power of two, and a quotient of naturals is rounded to the nearest value of
the format, ties to the even mantissa, all in `Nat`.

* `Binary.Format` : binary32 and binary64.
* `Binary.decode` : what bits stand for.
* `Binary.round` : the bits nearest to a quotient.
* `Binary.ofInt`, `Binary.convert`, `Binary.mul`, `Binary.div` : correctly rounded operations.
-/

namespace Parley

/-- Two to the power `n`. -/
abbrev twoPow (n : Nat) : Nat := Nat.pow 2 n

/-- Ten to the power `n`. -/
abbrev tenPow (n : Nat) : Nat := Nat.pow 10 n

end Parley

namespace Parley.Binary

/-- A binary interchange format: significant bits, hidden one included, and exponent bits. -/
structure Format where
  precision : Nat
  exponentBits : Nat

/-- Four bytes. -/
def binary32 : Format := ⟨24, 8⟩

/-- Eight bytes. -/
def binary64 : Format := ⟨53, 11⟩

namespace Format

/-- The exponent of the unit in the last place of the smallest values. -/
def minExponent (f : Format) : Int :=
  3 - (twoPow (f.exponentBits - 1) : Int) - f.precision

/-- The exponent field of infinities and NaNs. -/
def specialField (f : Format) : Nat :=
  twoPow f.exponentBits - 1

/-- The bits of positive infinity. -/
def infinity (f : Format) : Nat :=
  f.specialField * twoPow (f.precision - 1)

/-- The bits of the sign alone. -/
def signBit (f : Format) : Nat :=
  twoPow (f.precision - 1 + f.exponentBits)

/-- The bits of the quiet NaN. -/
def quietNaN (f : Format) : Nat :=
  f.infinity + twoPow (f.precision - 2)

end Format

/-- What bits stand for; a finite value is `mantissa * 2 ^ exponent` with a sign. -/
inductive Datum where
  | nan
  | infinite (negative : Bool)
  | finite (negative : Bool) (mantissa : Nat) (exponent : Int)
  deriving DecidableEq, Repr

/-- Reads the bits of a format. -/
def decode (f : Format) (bits : Nat) : Datum :=
  let negative := bits / f.signBit % 2 = 1
  let field := bits / twoPow (f.precision - 1) % twoPow f.exponentBits
  let fraction := bits % twoPow (f.precision - 1)
  if field = f.specialField then
    if fraction = 0 then .infinite negative else .nan
  else if field = 0 then .finite negative fraction f.minExponent
  else .finite negative (twoPow (f.precision - 1) + fraction) (f.minExponent + (field - 1 : Nat))

/-- The quotient rounded to the nearest integer, a half to the even one. -/
def nearest (num den : Nat) : Nat :=
  let q := num / den
  let twice := 2 * (num % den)
  if twice < den then q
  else if den < twice then q + 1
  else if q % 2 = 0 then q else q + 1

/-- The exponent of the leading bit of a positive quotient. -/
def leadingExponent (num den : Nat) : Int :=
  let e : Int := (num.log2 : Int) - (den.log2 : Int)
  if num * twoPow (-e).toNat < den * twoPow e.toNat then e - 1 else e

/-- The bits, sign left out, of the value nearest to a quotient. -/
def roundMagnitude (f : Format) (num den : Nat) : Nat :=
  if num = 0 then 0
  else
    let exponent := max (leadingExponent num den - ((f.precision : Int) - 1)) f.minExponent
    let mantissa := nearest (num * twoPow (-exponent).toNat) (den * twoPow exponent.toNat)
    min ((exponent - f.minExponent).toNat * twoPow (f.precision - 1) + mantissa) f.infinity

/-- The bits of the value nearest to a signed quotient. -/
def round (f : Format) (negative : Bool) (num den : Nat) : Nat :=
  (if negative then f.signBit else 0) + roundMagnitude f num den

/-- The bits of an infinity. -/
def infinite (f : Format) (negative : Bool) : Nat :=
  (if negative then f.signBit else 0) + f.infinity

/-- The value nearest to an integer. -/
def ofInt (f : Format) (n : Int) : Nat :=
  round f (n < 0) n.natAbs 1

/-- Rounds `mantissa * 2 ^ exponent`. -/
def ofScaled (f : Format) (negative : Bool) (mantissa : Nat) (exponent : Int) : Nat :=
  round f negative (mantissa * twoPow exponent.toNat) (twoPow (-exponent).toNat)

/-- A value of one format in another. -/
def convert (source target : Format) (bits : Nat) : Nat :=
  match decode source bits with
  | .nan => target.quietNaN
  | .infinite negative => infinite target negative
  | .finite negative mantissa exponent => ofScaled target negative mantissa exponent

/-- The product of two finite values, signs left out. -/
def mul (f : Format) (a b : Nat) : Nat :=
  match decode f a, decode f b with
  | .finite _ m e, .finite _ n d => ofScaled f false (m * n) (e + d)
  | _, _ => f.infinity

/-- The quotient of two finite values, the second not zero, signs left out. -/
def div (f : Format) (a b : Nat) : Nat :=
  match decode f a, decode f b with
  | .finite _ m e, .finite _ n d =>
    round f false (m * twoPow (e - d).toNat) (n * twoPow (d - e).toNat)
  | _, _ => f.infinity

/-- Whether bits stand for a NaN. -/
def isNaN (f : Format) (bits : Nat) : Bool :=
  decode f bits = .nan

/-- Whether bits stand for a number. -/
def isFinite (f : Format) (bits : Nat) : Bool :=
  match decode f bits with
  | .finite .. => true
  | _ => false

/-- Equality of the values that bits stand for: zeros are equal, a NaN equals nothing. -/
def same (f : Format) (a b : Nat) : Bool :=
  match decode f a, decode f b with
  | .nan, _ => false
  | _, .nan => false
  | .finite s m e, .finite t n d => if m = 0 then n = 0 else s = t && m = n && e = d
  | x, y => x = y

end Parley.Binary
