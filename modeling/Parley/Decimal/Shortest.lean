import Parley.Decimal.Binary

/-!
# The fewest digits that read back

A finite binary value is shown by the shortest decimal that lies in the interval of reals rounding
to it; of several the nearest to the value. The search tries one digit, then two, and so on, and
tests the two neighbours of the value on the decimal grid of that many digits, in exact arithmetic.

* `Decimal` : digits and a power of ten.
* `Decimal.shortest` : the shortest decimal of a positive finite value.
-/

namespace Parley

/-- The number `digits * 10 ^ exponent`. -/
structure Decimal where
  digits : Nat
  exponent : Int
  deriving DecidableEq, Repr

/-- What to do when both neighbours are equally near. -/
inductive Tie where
  | up
  | even
  deriving DecidableEq, Repr

namespace Decimal

/-- The exponent of the leading decimal digit of a positive quotient. -/
def leadingExponent (num den : Nat) : Int :=
  if den ≤ num then (((Nat.toDigits 10 (num / den)).length - 1 : Nat) : Int)
  else
    let j := (Nat.toDigits 10 (den / num)).length - 1
    if den ≤ tenPow j * num then -(j : Int) else -((j : Int) + 1)

/-- A positive value between the ends of its interval, all three over one denominator. -/
structure Interval where
  low : Nat
  value : Nat
  high : Nat
  den : Nat
  closed : Bool

/-- The reals that round to `mantissa * 2 ^ exponent`; the ends belong iff the mantissa is even. -/
def interval (f : Binary.Format) (mantissa : Nat) (exponent : Int) : Interval :=
  let up := twoPow (exponent - 2).toNat
  let narrow := mantissa = twoPow (f.precision - 1) ∧ f.minExponent < exponent
  { low := (4 * mantissa - if narrow then 1 else 2) * up
    value := 4 * mantissa * up
    high := (4 * mantissa + 2) * up
    den := twoPow (2 - exponent).toNat
    closed := mantissa % 2 = 0 }

/-- Whether a point on the grid, over the same denominator, lies in the interval. -/
def Interval.holds (i : Interval) (scale point : Nat) : Bool :=
  if i.closed then i.low * scale ≤ point && point ≤ i.high * scale
  else i.low * scale < point && point < i.high * scale

/-- The grid neighbour to take, if one lies in the interval: `step` is the grid's unit and `scale`
what the interval is multiplied by to make both whole. -/
def neighbour (tie : Tie) (i : Interval) (scale step : Nat) : Option Nat :=
  let value := i.value * scale
  let below := value / step
  let above := below + 1
  let lowFits := i.holds scale (below * step) && 0 < below
  let highFits := i.holds scale (above * step)
  let toLow := value - below * step
  let toHigh := above * step - value
  if lowFits && highFits then
    if toLow < toHigh then some below
    else if toHigh < toLow then some above
    else match tie with
      | .up => some above
      | .even => if below % 2 = 0 then some below else some above
  else if lowFits then some below
  else if highFits then some above
  else none

/-- Tries grids of `count` digits and more, at most `fuel` of them. -/
def search (tie : Tie) (i : Interval) (leading : Int) (count : Nat) : Nat → Decimal
  | 0 => ⟨i.value / i.den, 0⟩
  | fuel + 1 =>
    let exponent := leading - ((count : Int) - 1)
    match neighbour tie i (tenPow (-exponent).toNat) (tenPow exponent.toNat * i.den) with
    | some digits => ⟨digits, exponent⟩
    | none => search tie i leading (count + 1) fuel

/-- Moves trailing zeros of the digits into the exponent; a number has at most `fuel` of them. -/
def trim (d : Decimal) : Nat → Decimal
  | 0 => d
  | fuel + 1 =>
    if d.digits ≠ 0 ∧ d.digits % 10 = 0 then trim ⟨d.digits / 10, d.exponent + 1⟩ fuel else d

/-- The shortest decimal that reads back as `mantissa * 2 ^ exponent`, a positive value. -/
def shortest (f : Binary.Format) (tie : Tie) (mantissa : Nat) (exponent : Int) : Decimal :=
  let i := interval f mantissa exponent
  trim (search tie i (leadingExponent i.value i.den) 1 20) 20

end Decimal

end Parley
