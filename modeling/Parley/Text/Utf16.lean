/-!
# UTF-16 text

Strings cross the wire as UTF-16 code units. Reading is lossy: a surrogate without its partner
becomes the replacement character, and the unit after it is read on its own.

* `Utf16.encode` : the units of a string.
* `Utf16.decode` : the characters of any list of units.
-/

namespace Parley.Utf16

/-- The units of one character: one below `U+10000`, else a surrogate pair. -/
def units (c : Char) : List UInt16 :=
  let n := c.toNat
  if n < 0x10000 then [UInt16.ofNat n]
  else
    [UInt16.ofNat (0xD800 + (n - 0x10000) / 0x400), UInt16.ofNat (0xDC00 + (n - 0x10000) % 0x400)]

/-- The units of a string. -/
def encode (s : String) : List UInt16 :=
  s.toList.flatMap units

/-- A leading surrogate. -/
def isHigh (u : UInt16) : Bool :=
  0xD800 ≤ u.toNat && u.toNat < 0xDC00

/-- A trailing surrogate. -/
def isLow (u : UInt16) : Bool :=
  0xDC00 ≤ u.toNat && u.toNat < 0xE000

/-- Stands for a surrogate without a partner. -/
def replacement : Char := '\uFFFD'

/-- The character of a unit that leads no pair. -/
def single (u : UInt16) : Char :=
  if isHigh u || isLow u then replacement else Char.ofNat u.toNat

/-- The character of a surrogate pair. -/
def pair (high low : UInt16) : Char :=
  Char.ofNat (0x10000 + (high.toNat - 0xD800) * 0x400 + (low.toNat - 0xDC00))

/-- The characters of a list of units. -/
def decodeChars : List UInt16 → List Char
  | [] => []
  | [u] => [single u]
  | u :: v :: rest =>
    if isHigh u && isLow v then pair u v :: decodeChars rest
    else single u :: decodeChars (v :: rest)

/-- The text of a list of units. -/
def decode (us : List UInt16) : String :=
  String.ofList (decodeChars us)

end Parley.Utf16
