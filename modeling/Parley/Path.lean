/-!
# Value paths

A path leads from a value to one of its parts: by position into an array, by name into a record.

* `Step`, `Path` : one step and a sequence of them.
* `Path.text` : how messages show a path, `[0].name.first`, or `.` for the empty path.
-/

namespace Parley

/-- One step into a value. -/
inductive Step where
  | index (i : Int)
  | name (n : String)
  deriving DecidableEq, Repr, Inhabited

/-- Steps from the outside in. -/
abbrev Path := List Step

/-- `[i]` for a position, `.n` for a name. -/
def Step.text : Step → String
  | .index i => "[" ++ toString i ++ "]"
  | .name n => "." ++ n

/-- The steps one after the other; the empty path is a lone dot. -/
def Path.text : Path → String
  | [] => "."
  | p => String.join (p.map Step.text)

end Parley
