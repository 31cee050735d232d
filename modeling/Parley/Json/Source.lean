import Parley.Json.Number
import Parley.Table

/-!
# Reading JSON text

Text is first read as a tree that keeps what was written: members in their order, repeated or not,
numbers by their digits, strings with the surrogates that have no partner. Whether numbers and
strings have a value is asked when the tree is used, so a part that nobody uses may hold any.

* `Source` : text as it is written.
* `Source.read?` : the tree of a text, all of which must be used up.
* `Source.json?`, `Json.parse?` : the JSON value of a tree and of a text.
-/

namespace Parley

/-- JSON text as it is written; a string is absent if its surrogates do not pair up. -/
inductive Source where
  | null
  | bool (b : Bool)
  | number (t : NumberText)
  | string (s : Option String)
  | array (items : List Source)
  | object (members : List (Option String × Source))
  deriving Repr

namespace Source

/-! ## Strings -/

/-- A part of a string: a character, or the code unit of a numeric escape. -/
inductive Piece where
  | char (c : Char)
  | unit (n : Nat)

/-- The characters of the parts of a string: units are characters or pair up as surrogates. -/
def assemble : List Piece → Option (List Char)
  | [] => some []
  | .char c :: rest => (assemble rest).map (c :: ·)
  | .unit n :: .unit m :: rest =>
    if 0xD800 ≤ n ∧ n < 0xDC00 then
      if 0xDC00 ≤ m ∧ m < 0xE000 then
        (assemble rest).map (Char.ofNat (0x10000 + (n - 0xD800) * 0x400 + (m - 0xDC00)) :: ·)
      else none
    else if 0xDC00 ≤ n ∧ n < 0xE000 then none
    else (assemble (.unit m :: rest)).map (Char.ofNat n :: ·)
  | .unit n :: rest =>
    if 0xD800 ≤ n ∧ n < 0xE000 then none else (assemble rest).map (Char.ofNat n :: ·)

/-- The value of a hexadecimal digit. -/
def hexDigit? (c : Char) : Option Nat :=
  if '0' ≤ c ∧ c ≤ '9' then some (c.toNat - '0'.toNat)
  else if 'a' ≤ c ∧ c ≤ 'f' then some (c.toNat - 'a'.toNat + 10)
  else if 'A' ≤ c ∧ c ≤ 'F' then some (c.toNat - 'A'.toNat + 10)
  else none

/-- The character of a short escape. -/
def shortEscape? : Char → Option Char
  | '"' => some '"'
  | '\\' => some '\\'
  | '/' => some '/'
  | 'b' => some '\x08'
  | 'f' => some '\x0c'
  | 'n' => some '\n'
  | 'r' => some '\r'
  | 't' => some '\t'
  | _ => none

/-- The parts of a string up to its closing quote, and the text after it. -/
def pieces? : List Char → Option (List Piece × List Char)
  | [] => none
  | c :: rest =>
    if c = '"' then some ([], rest)
    else if c = '\\' then
      match rest with
      | 'u' :: h₃ :: h₂ :: h₁ :: h₀ :: rest => do
        let n := ((← hexDigit? h₃) * 16 + (← hexDigit? h₂)) * 256
          + (← hexDigit? h₁) * 16 + (← hexDigit? h₀)
        let (more, after) ← pieces? rest
        return (.unit n :: more, after)
      | e :: rest => do
        let c ← shortEscape? e
        let (more, after) ← pieces? rest
        return (.char c :: more, after)
      | [] => none
    else if c.toNat < 0x20 then none
    else do
      let (more, after) ← pieces? rest
      return (.char c :: more, after)

/-- A string after its opening quote. -/
def string? (cs : List Char) : Option (Option String × List Char) := do
  let (parts, rest) ← pieces? cs
  return ((assemble parts).map String.ofList, rest)

/-! ## Numbers -/

/-- The digits at the front of a text, and the text after them. -/
def digits (cs : List Char) : List Nat × List Char :=
  ((cs.takeWhile Char.isDigit).map fun c => c.toNat - '0'.toNat, cs.dropWhile Char.isDigit)

/-- The digits after a point, if there is one; at least one must follow it. -/
def fraction? : List Char → Option (List Nat × List Char)
  | '.' :: cs =>
    match digits cs with
    | ([], _) => none
    | found => some found
  | cs => some ([], cs)

/-- The sign and the digits of an exponent, if there is one; at least one digit must follow. -/
def exponent? : List Char → Option (Option (Bool × List Nat) × List Char)
  | [] => some (none, [])
  | c :: cs =>
    if c = 'e' ∨ c = 'E' then
      let (down, unsigned) := match cs with
        | '+' :: cs => (false, cs)
        | '-' :: cs => (true, cs)
        | cs => (false, cs)
      match digits unsigned with
      | ([], _) => none
      | (found, rest) => some (some (down, found), rest)
    else some (none, c :: cs)

/-- A number; no digit may follow a leading zero. -/
def number? (cs : List Char) : Option (NumberText × List Char) := do
  let (negative, unsigned) := match cs with
    | '-' :: cs => (true, cs)
    | cs => (false, cs)
  let (whole, rest) := digits unsigned
  if whole = [] ∨ (whole.length > 1 ∧ whole.head? = some 0) then none
  let (fraction, rest) ← fraction? rest
  let (exponent, rest) ← exponent? rest
  return (⟨negative, whole, fraction, exponent⟩, rest)

/-! ## Trees -/

/-- The characters that may stand between tokens. -/
def isBlank (c : Char) : Bool :=
  c = ' ' || c = '\n' || c = '\t' || c = '\r'

/-- A text without the blanks in front. -/
def skip (cs : List Char) : List Char :=
  cs.dropWhile isBlank

mutual

/-- A value, nested no deeper than the fuel, and the text after it. -/
def value? : Nat → List Char → Option (Source × List Char)
  | 0, _ => none
  | fuel + 1, cs =>
    match skip cs with
    | 'n' :: 'u' :: 'l' :: 'l' :: rest => some (.null, rest)
    | 't' :: 'r' :: 'u' :: 'e' :: rest => some (.bool true, rest)
    | 'f' :: 'a' :: 'l' :: 's' :: 'e' :: rest => some (.bool false, rest)
    | '"' :: rest => do
      let (s, rest) ← string? rest
      return (.string s, rest)
    | '[' :: rest =>
      match skip rest with
      | ']' :: rest => some (.array [], rest)
      | rest => do
        let (items, rest) ← items? fuel rest
        return (.array items, rest)
    | '{' :: rest =>
      match skip rest with
      | '}' :: rest => some (.object [], rest)
      | rest => do
        let (members, rest) ← members? fuel rest
        return (.object members, rest)
    | rest => do
      let (t, rest) ← number? rest
      return (.number t, rest)

/-- The items of an array up to its closing bracket, one or more. -/
def items? : Nat → List Char → Option (List Source × List Char)
  | 0, _ => none
  | fuel + 1, cs => do
    let (first, rest) ← value? fuel cs
    match skip rest with
    | ',' :: rest =>
      let (more, rest) ← items? fuel rest
      return (first :: more, rest)
    | ']' :: rest => return ([first], rest)
    | _ => none

/-- The members of an object up to its closing brace, one or more. -/
def members? : Nat → List Char → Option (List (Option String × Source) × List Char)
  | 0, _ => none
  | fuel + 1, cs => do
    match skip cs with
    | '"' :: rest =>
      let (name, rest) ← string? rest
      match skip rest with
      | ':' :: rest =>
        let (first, rest) ← value? fuel rest
        match skip rest with
        | ',' :: rest =>
          let (more, rest) ← members? fuel rest
          return ((name, first) :: more, rest)
        | '}' :: rest => return ([(name, first)], rest)
        | _ => none
      | _ => none
    | _ => none

end

/-- The tree of a text; nothing but blanks may follow it. -/
def read? (text : String) : Option Source :=
  match value? (2 * text.toList.length + 2) text.toList with
  | some (s, rest) => if skip rest = [] then some s else none
  | none => none

/-! ## JSON values -/

/-- The number of containers that may stand in one another. -/
def maxDepth : Nat := 127

mutual

/-- The JSON value of a tree with at most `depth` containers in one another; of two members of one
name the later stands. -/
def json? : Source → Nat → Option Json
  | null, _ => some .null
  | bool b, _ => some (.bool b)
  | number t, _ => t.value?
  | string s, _ => s.map .string
  | array _, 0 => none
  | array items, depth + 1 => (jsonItems? items depth).map .array
  | object _, 0 => none
  | object members, depth + 1 =>
    (jsonMembers? members depth).map fun members => .object (Table.ofList members)

/-- The JSON values of items. -/
def jsonItems? : List Source → Nat → Option (List Json)
  | [], _ => some []
  | s :: rest, depth => do
    let j ← s.json? depth
    return j :: (← jsonItems? rest depth)

/-- The JSON values of members. -/
def jsonMembers? : List (Option String × Source) → Nat → Option (List (String × Json))
  | [], _ => some []
  | (name, s) :: rest, depth => do
    let n ← name
    let j ← s.json? depth
    return (n, j) :: (← jsonMembers? rest depth)

end

end Source

/-- The JSON value of a text. -/
def Json.parse? (text : String) : Option Json := do
  (← Source.read? text).json? Source.maxDepth

/-- The items of a text that is a JSON array. -/
def Json.parseArray? (text : String) : Option (List Json) := do
  match ← Json.parse? text with
  | .array items => some items
  | _ => none

end Parley
