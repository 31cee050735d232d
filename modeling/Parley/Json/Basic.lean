import Parley.Decimal.Layout
import Parley.Integer
import Parley.Text.Quoted

/-!
# JSON values and their text

Whole numbers are those of 64 bits, signed or not; every other number is a finite double. Objects
have their members in name order.

* `Json` : the values.
* `Json.text` : the compact text of a value, the form in which messages are sent.
* `Json.inspect` : a value as error messages show it.
-/

namespace Parley

/-- Whether `n` is the value of a 64-bit integer, signed or not. -/
def IsWhole (n : Int) : Prop :=
  IntKind.i64.Holds n ∨ IntKind.u64.Holds n

instance (n : Int) : Decidable (IsWhole n) :=
  inferInstanceAs (Decidable (_ ∨ _))

/-- Whether bits stand for a finite double. -/
def IsFiniteDouble (bits : UInt64) : Prop :=
  Binary.isFinite Binary.binary64 bits.toNat = true

instance (bits : UInt64) : Decidable (IsFiniteDouble bits) :=
  inferInstanceAs (Decidable (_ = true))

/-- A JSON value. -/
inductive Json where
  | null
  | bool (b : Bool)
  | whole (n : Int) (isWhole : IsWhole n)
  | float (bits : UInt64) (isFinite : IsFiniteDouble bits)
  | string (s : String)
  | array (items : List Json)
  | object (members : List (String × Json))

namespace Json

instance : Inhabited Json := ⟨null⟩

/-- The number of a whole number. -/
def whole? : Json → Option Int
  | whole n _ => some n
  | _ => none

/-- The truth value of one. -/
def bool? : Json → Option Bool
  | bool b => some b
  | _ => none

/-- The text of a string. -/
def string? : Json → Option String
  | string s => some s
  | _ => none

/-! ## Compact text -/

/-- One character inside quotes. -/
def escapedChar (c : Char) : String :=
  if c = '"' then "\\\""
  else if c = '\\' then "\\\\"
  else if c = '\x08' then "\\b"
  else if c = '\x0c' then "\\f"
  else if c = '\n' then "\\n"
  else if c = '\r' then "\\r"
  else if c = '\t' then "\\t"
  else if c.toNat < 0x10 then "\\u000" ++ hexDigits c.toNat
  else if c.toNat < 0x20 then "\\u00" ++ hexDigits c.toNat
  else c.toString

/-- A string in quotes. -/
def quote (s : String) : String :=
  "\"" ++ String.join (s.toList.map escapedChar) ++ "\""

/-- A finite double. -/
def floatText (bits : UInt64) : String :=
  match Binary.decode Binary.binary64 bits.toNat with
  | .finite negative mantissa exponent =>
    Layout.json.text Binary.binary64 negative mantissa exponent
  | _ => "null"

mutual

/-- The compact text of a value. -/
def text : Json → String
  | null => "null"
  | bool b => if b then "true" else "false"
  | whole n _ => toString n
  | float bits _ => floatText bits
  | string s => quote s
  | array items => "[" ++ ",".intercalate (texts items) ++ "]"
  | object members => "\x7b" ++ ",".intercalate (memberTexts members) ++ "\x7d"

/-- The texts of the items of an array. -/
def texts : List Json → List String
  | [] => []
  | j :: rest => j.text :: texts rest

/-- The texts of the members of an object. -/
def memberTexts : List (String × Json) → List String
  | [] => []
  | (n, j) :: rest => (quote n ++ ":" ++ j.text) :: memberTexts rest

end

/-! ## Text in messages -/

mutual

/-- A value as error messages show it. -/
def inspect : Json → String
  | null => "Null"
  | bool b => "Bool(" ++ (if b then "true" else "false") ++ ")"
  | whole n _ => "Number(" ++ toString n ++ ")"
  | float bits _ => "Number(" ++ floatText bits ++ ")"
  | string s => "String(" ++ quoted s ++ ")"
  | array items => "Array [" ++ ", ".intercalate (inspectItems items) ++ "]"
  | object members => "Object \x7b" ++ ", ".intercalate (inspectMembers members) ++ "\x7d"

/-- The items of an array as error messages show them. -/
def inspectItems : List Json → List String
  | [] => []
  | j :: rest => j.inspect :: inspectItems rest

/-- The members of an object as error messages show them. -/
def inspectMembers : List (String × Json) → List String
  | [] => []
  | (n, j) :: rest => (quoted n ++ ": " ++ j.inspect) :: inspectMembers rest

end

end Json

end Parley
