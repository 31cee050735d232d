import Parley.Store.Basic

/-!
# Writing through shared records

To replace a part deep inside a value, the containers on the way that have value semantics are
copied out, changed and stored back into what they came from. A shared record ends the chain: it is
changed in place, so the containers above it stay as they are and all who hold it see the write.

* `Store.member`, `Store.get` : the part at a path.
* `Store.Writing` : computations that change shared records.
* `Store.setMember` : another part one step into a cell.
* `Store.Trail`, `Store.descend`, `Store.storeBack` : the containers on the way to a part, and back.
* `Store.set` : another part at a path.
-/

namespace Parley.Store

/-- An error about a step that does not apply to a cell. -/
def wrongContainer (s : Store) (c : Cell) (step : Step) : Error :=
  .wrongContainer step (s.snapshot c)

/-- The part one step into a cell. -/
def member (s : Store) (c : Cell) (step : Step) : Except Error Cell :=
  match c, step with
  | .array items, .index i => do
    match items[← position i]? with
    | some c => return c
    | none => throw (.outOfBounds i items.length)
  | c, .name n =>
    match s.fields? c with
    | none => .error (s.wrongContainer c step)
    | some fields =>
      match Table.find? n fields with
      | some c => .ok c
      | none => .error (.noField n)
  | c, step => .error (s.wrongContainer c step)

/-- The part at a path. -/
def get (s : Store) (c : Cell) : Path → Except Error Cell
  | [] => .ok c
  | step :: p => do s.get (← s.member c step) p

/-! ## Writing -/

/-- Computations that change shared records; what they wrote before they fail stays written. -/
abbrev Writing := ExceptT Error (StateM Store)

/-- The cell with `x` for the part one step into it; a shared record is changed in place. -/
def setMember (c : Cell) (step : Step) (x : Cell) : Writing Cell :=
  match c, step with
  | .array items, .index i => do
    let k ← position i
    if k < items.length then return .array (items.set k x)
    throw (.outOfBounds i items.length)
  | .record fields, .name n =>
    match Table.set? n x fields with
    | some fields' => return .record fields'
    | none => throw (.noField n)
  | .shared id, .name n => do
    match Table.set? n x ((← getThe Store).fields id) with
    | some fields' =>
      modifyThe Store fun s => s.write id fields'
      return .shared id
    | none => throw (.noField n)
  | c, step => do throw ((← getThe Store).wrongContainer c step)

/-- The containers that a path has entered: the last shared record among them, if there is one, and
those entered after it, which are copies, each with the step into it and the innermost first. -/
structure Trail where
  anchor : Option Cell
  copies : List (Step × Cell)

/-- The container that a trail from a root has come to. -/
def Trail.last (root : Cell) : Trail → Cell
  | ⟨_, (_, c) :: _⟩ => c
  | ⟨anchor, []⟩ => anchor.getD root

/-- A trail with one container more; a shared record takes the place of all before it. -/
def Trail.enter (t : Trail) (step : Step) : Cell → Trail
  | .shared id => ⟨some (.shared id), []⟩
  | c => { t with copies := (step, c) :: t.copies }

/-- The trail of a path from a root that goes on from a trail. -/
def descend (s : Store) (root : Cell) (t : Trail) : Path → Except Error Trail
  | [] => .ok t
  | step :: p => do s.descend root (t.enter step (← s.member (t.last root) step)) p

/-- Puts `x` into the innermost copy, that one into the next, and the outermost into `top`. -/
def storeBack (top : Cell) (step : Step) (x : Cell) : List (Step × Cell) → Writing Cell
  | [] => setMember top step x
  | (up, c) :: copies => do storeBack top up (← setMember c step x) copies

/-- The cell with `x` for the part at a path. Below a shared record nothing is stored back above
it. -/
def set (x c : Cell) (p : Path) : Writing Cell := do
  match p.getLast? with
  | none => return x
  | some leaf =>
    let t ← (← getThe Store).descend c ⟨none, []⟩ p.dropLast
    match t.anchor with
    | none => storeBack c leaf x t.copies
    | some record =>
      let _ ← storeBack record leaf x t.copies
      return c

end Parley.Store
