import Parley.Decimal.Shortest

/-!
# Written forms of floating-point numbers

A layout says where positional notation ends and how an exponent looks. Two are in use: the one of
messages and the one of JSON text.

* `Layout` : the choices a written form makes.
* `Layout.message`, `Layout.json` : the two layouts.
* `Layout.text` : the written form of a finite value.
-/

namespace Parley

/-- How a finite number is written: positional from `10 ^ positionalFrom` up to, but not at,
`10 ^ positionalTo`, with an exponent elsewhere. -/
structure Layout where
  positionalFrom : Int
  positionalTo : Int
  plusSign : Bool
  tie : Tie

namespace Layout

/-- Messages write numbers from `1e-4` to below `1e16` positionally and no plus sign. -/
def message : Layout := ⟨-4, 16, false, .up⟩

/-- JSON text writes numbers from `1e-5` to below `1e16` positionally and signs every exponent. -/
def json : Layout := ⟨-5, 16, true, .even⟩

/-- Digits with a point after the first `whole` of them, at least one digit on each side. -/
def positional (digits : List Char) (whole : Int) : List Char :=
  if whole ≤ 0 then '0' :: '.' :: (List.replicate (-whole).toNat '0' ++ digits)
  else
    let n := whole.toNat
    if digits.length ≤ n then digits ++ List.replicate (n - digits.length) '0' ++ ['.', '0']
    else digits.take n ++ '.' :: digits.drop n

/-- One digit, a point if more follow, and the exponent of the leading digit. -/
def scientific (layout : Layout) (digits : List Char) (leading : Int) : List Char :=
  let sign := if leading < 0 then ['-'] else if layout.plusSign then ['+'] else []
  let point := if digits.length ≤ 1 then digits else digits.take 1 ++ '.' :: digits.drop 1
  point ++ 'e' :: sign ++ Nat.toDigits 10 leading.natAbs

/-- The written form of a positive decimal. -/
def decimal (layout : Layout) (d : Decimal) : List Char :=
  let digits := Nat.toDigits 10 d.digits
  let leading := d.exponent + (digits.length : Int) - 1
  if layout.positionalFrom ≤ leading ∧ leading < layout.positionalTo then
    positional digits (leading + 1)
  else scientific layout digits leading

/-- The written form of a finite value, zeros as `0.0` with their sign. -/
def text (layout : Layout) (f : Binary.Format) (negative : Bool) (mantissa : Nat)
    (exponent : Int) : String :=
  let sign := if negative then ['-'] else []
  let body := if mantissa = 0 then ['0', '.', '0']
    else decimal layout (Decimal.shortest f layout.tie mantissa exponent)
  String.ofList (sign ++ body)

end Layout

/-- A floating-point number as messages show it. -/
def Binary.messageText (f : Binary.Format) (bits : Nat) : String :=
  match Binary.decode f bits with
  | .nan => "NaN"
  | .infinite negative => if negative then "-inf" else "inf"
  | .finite negative mantissa exponent => Layout.message.text f negative mantissa exponent

end Parley
