import Parley.Store.Basic

/-!
# Casting cells

A cell is cast like the value it stands for. A shared record that is cast to a type with reference
semantics keeps its identity: its contents are replaced by the cast ones once all of them are cast.

* `Store.cast` : a cell as one of a type.
-/

namespace Parley.Store

/-- Computations on a store that may find a mismatch; what they wrote before stays written. -/
abbrev Casting := ExceptT TypeMismatch (StateM Store)

/-- Fails with the value that a cell stands for at this moment. -/
def refuse {α : Type} (c : Cell) (t : Ty) : Casting α := do
  throw (.unsuited ((← getThe Store).snapshot c) t)

mutual

/-- A cell as one of a type. -/
def cast : Ty → Cell → Casting Cell
  | .scalar t, .scalar v =>
    match v.cast? t with
    | some v' => return .scalar v'
    | none => refuse (.scalar v) (.scalar t)
  | .array element, .array items => return .array (← items.mapM fun c => cast element c)
  | .record kind name table, c => do
    match (← getThe Store).fields? c with
    | none => refuse c (.record kind name table)
    | some fields =>
      let (done, rest) ← castFields table fields
      if !rest.isEmpty then refuse c (.record kind name table)
      let fields' := Table.ofList done
      match kind, c with
      | .value, _ => return .record fields'
      | .reference, .shared id =>
        modifyThe Store fun s => s.write id fields'
        return .shared id
      | .reference, _ => modifyGetThe Store fun s => s.allocate fields'
  | t, c => refuse c t
termination_by structural t => t

/-- The fields of a table in its order, each taken from the fields and cast or started anew, and
the fields that are left. -/
def castFields : List (String × Ty) → List (String × Cell) →
    Casting (List (String × Cell) × List (String × Cell))
  | [], fields => return ([], fields)
  | (n, t) :: table, fields => do
    let c ← match Table.find? n fields with
      | some c => cast t c
      | none => monadLift (load t.default)
    let (done, rest) ← castFields table (Table.erase n fields)
    return ((n, c) :: done, rest)
termination_by structural table => table

end

end Parley.Store
