import Parley.Native.Basic
import Parley.Value.Access

/-!
# Shared records

A record with reference semantics has an identity: whoever holds it sees what others write. A store
keeps the contents of such records by number, and cells are values that name them by it. A value is
the tree that a cell stands for at some moment.

* `Cell`, `Store` : values that share records, and the records.
* `Store.snapshot` : the tree of a cell.
* `Store.load` : a tree as a cell, each shared record in it a new one.
-/

namespace Parley

/-- A value whose shared records are named by number. -/
inductive Cell where
  | scalar (s : Scalar)
  | array (items : List Cell)
  | record (fields : List (String × Cell))
  | shared (id : Nat)
  deriving Repr

/-- The contents of shared records, by number. -/
structure Store where
  records : List (List (String × Cell))

namespace Store

/-- No shared records. -/
def empty : Store := ⟨[]⟩

/-- The contents of a record. -/
def fields (s : Store) (id : Nat) : List (String × Cell) :=
  s.records[id]?.getD []

/-- Replaces the contents of a record. -/
def write (s : Store) (id : Nat) (fields : List (String × Cell)) : Store :=
  ⟨s.records.set id fields⟩

/-- A new record. -/
def allocate (s : Store) (fields : List (String × Cell)) : Cell × Store :=
  (.shared s.records.length, ⟨s.records ++ [fields]⟩)

/-! ## Trees of cells -/

mutual

/-- The tree of a cell, given the trees of records. -/
def tree (look : Nat → Value) : Cell → Value
  | .scalar s => .scalar s
  | .array items => .array (trees look items)
  | .record fields => .record .value (fieldTrees look fields)
  | .shared id => look id

/-- The trees of items. -/
def trees (look : Nat → Value) : List Cell → List Value
  | [] => []
  | c :: rest => tree look c :: trees look rest

/-- The trees of fields. -/
def fieldTrees (look : Nat → Value) : List (String × Cell) → List (String × Value)
  | [] => []
  | (n, c) :: rest => (n, tree look c) :: fieldTrees look rest

end

/-- The tree of a record in which records stand in one another at most `depth` deep. -/
def recordTree (s : Store) : Nat → Nat → Value
  | 0, _ => .record .reference []
  | depth + 1, id => .record .reference (fieldTrees (s.recordTree depth) (s.fields id))

/-- The tree of a cell; records that do not contain themselves stand in one another no deeper than
there are records. -/
def snapshot (s : Store) (c : Cell) : Value :=
  tree (s.recordTree s.records.length) c

/-! ## Cells of trees -/

mutual

/-- A tree as a cell; each record with reference semantics becomes a new one. -/
def load : Value → StateM Store Cell
  | .scalar s => return .scalar s
  | .array items => return .array (← loadItems items)
  | .record .value fields => return .record (← loadFields fields)
  | .record .reference fields => do
    let cells ← loadFields fields
    modifyGet fun s => s.allocate cells

/-- Items as cells. -/
def loadItems : List Value → StateM Store (List Cell)
  | [] => return []
  | v :: rest => do
    let c ← load v
    return c :: (← loadItems rest)

/-- Fields as cells. -/
def loadFields : List (String × Value) → StateM Store (List (String × Cell))
  | [] => return []
  | (n, v) :: rest => do
    let c ← load v
    return (n, c) :: (← loadFields rest)

end

/-- The fields of a record of either kind. -/
def fields? (s : Store) : Cell → Option (List (String × Cell))
  | .record fields => some fields
  | .shared id => some (s.fields id)
  | _ => none

end Store

/-- Whether two cells are the same shared record. -/
def Cell.sharedWith : Cell → Cell → Bool
  | .shared i, .shared j => i = j
  | _, _ => false

end Parley
