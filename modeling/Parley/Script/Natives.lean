import Parley.Native.Function
import Parley.Native.Records

/-!
# Native functions of scripted sessions

Eight functions on native data, each with what it does to its arguments; a failure is the message of
an exception.

* `Sample` : the functions by name.
* `Sample.domain`, `Sample.range`, `Sample.apply` : their types and what they compute.
-/

namespace Parley

/-- The functions a session may register by name. -/
inductive Sample where
  | add
  | notify
  | fail
  | echo
  | three
  | join
  | tag
  | login
  deriving DecidableEq, Repr

namespace Sample

/-- The types of the parameters. -/
abbrev domain : Sample → List Ty
  | add => [.int .i32, .int .i32]
  | notify => [.string]
  | fail => []
  | echo => [echoTy]
  | three => [.int .i8, .int .i64, .array (.int .i32)]
  | join => [.string, .int .u16, .array .string, .bool]
  | tag => [nodeTy, pointTy]
  | login => [loginRequestTy]

/-- The type of the result. -/
abbrev range : Sample → Ty
  | add => .int .i32
  | notify => .nil
  | fail => .nil
  | echo => echoTy
  | three => .array (.int .i64)
  | join => .string
  | tag => nodeTy
  | login => loginResponseTy

theorem holds_word {n : Int} (h : IntKind.i8.Holds n) : IntKind.i32.Holds n := by
  simp [IntKind.Holds, IntKind.min, IntKind.max, IntKind.signed, IntKind.modulus] at *
  omega

theorem holds_long {n : Int} (h : IntKind.i32.Holds n) : IntKind.i64.Holds n := by
  simp [IntKind.Holds, IntKind.min, IntKind.max, IntKind.signed, IntKind.modulus] at *
  omega

/-- A signed word as an integer of eight bytes. -/
def widen (n : Int) (h : IntKind.i32.Holds n) : { n : Int // IntKind.i64.Holds n } :=
  ⟨n, holds_long h⟩

/-- What a function computes. -/
def apply : (s : Sample) → Ty.Tuple s.domain → Except String s.range.Carrier
  | add, (a, b, ()) =>
    if h : IntKind.i32.Holds (a.val + b.val) then .ok ⟨a.val + b.val, h⟩ else .error "overflow"
  | notify, _ => .ok ()
  | fail, _ => .error "nope"
  | echo, (e, ()) => .ok e
  | three, (a, b, c, ()) =>
    .ok (widen a.val (holds_word a.property) :: b :: c.map fun n => widen n.val n.property)
  | join, (a, n, p, f, ()) =>
    .ok (a ++ "|" ++ toString n.val ++ "|" ++ ",".intercalate p ++ "|"
      ++ if f then "true" else "false")
  | tag, ((tags, _, ()), p, ()) => .ok (tags ++ [p.2.2.1], p, ())
  | login, (request, ()) =>
    .ok (request.1, "", "", "", ⟨0, by decide⟩, "Hello, Avatar!", ⟨7, by decide⟩,
      ⟨9000, by decide⟩, "", "", "", "", ⟨0, by decide⟩, ⟨-3, by decide⟩, "", "", "", ())

/-- What a function answers. -/
def answer (s : Sample) (args : Ty.Tuple s.domain) : Except String Value :=
  (s.apply args).map s.range.encode

end Sample

end Parley
