import Parley.Mapping.Basic
import Parley.Script.Failure
import Parley.Sketch
import Parley.Store.Access
import Parley.Store.Cast

/-!
# Scripts over shared records

A script works on named registers that hold cells of one store, so that several registers, and
several places in one of them, may hold the same record.

* `Draft` : a value to be made, parts of which are copied from registers.
* `RecordStep` : the steps.
* `Registers.run` : what the steps answer, with the registers after each.
-/

namespace Parley

/-- A value to be made; each record with reference semantics in it will be a new one. -/
inductive Draft where
  | scalar (s : Scalar)
  | array (items : List Draft)
  | record (kind : RecordKind) (fields : List (String × Draft))
  | register (name : String)

/-- One step of a script; a register named last, if any, is given the value that the step yields. -/
inductive RecordStep where
  | make (draft : Draft) (dest : Option String)
  | default (t : Ty) (dest : Option String)
  | construct (encoding : List MappingEntry) (t : Ty) (dest : Option String)
  | get (source : String) (path : Path) (dest : Option String)
  | member (source : String) (step : Step) (dest : Option String)
  | cast (source : String) (t : Ty) (dest : Option String)
  | decode (source : String) (t : Ty) (dest : Option String)
  | fields (source : String) (dest : Option String)
  | same (a b : String)
  | set (target : String) (path : Path) (draft : Draft)
  | setMember (target : String) (step : Step) (draft : Draft)

/-- What a step yields. -/
inductive RecordAnswer where
  | value (v : Value)
  | same (equal shared : Bool)
  | done
  | nothing

/-- Named cells and the records they share. -/
structure Registers where
  store : Store
  cells : List (String × Cell)

namespace Registers

/-- No registers. -/
def empty : Registers :=
  ⟨.empty, []⟩

/-- Computations on registers; what they changed before they fail stays changed. -/
abbrev Effect := ExceptT Failure (StateM Registers)

/-- The cell of a register. -/
def cell (name : String) : Effect Cell := do
  return (Table.find? name (← get).cells).getD (.scalar .nil)

/-- Gives a register a cell. -/
def assign (name : String) (c : Cell) : Effect Unit :=
  modify fun r => { r with cells := Table.insert name c r.cells }

/-- Runs a computation on the store. -/
def onStore {α : Type} (f : StateM Store α) : Effect α := do
  let r ← get
  let (a, store) := f.run r.store
  set { r with store := store }
  return a

mutual

/-- The cell of a draft. -/
def build : Draft → Effect Cell
  | .scalar s => return .scalar s
  | .array items => return .array (← buildItems items)
  | .record kind fields => do
    let cells := Table.ofList (← buildFields fields)
    match kind with
    | .value => return .record cells
    | .reference => onStore (modifyGet fun s => s.allocate cells)
  | .register name => cell name

/-- The cells of items. -/
def buildItems : List Draft → Effect (List Cell)
  | [] => return []
  | d :: rest => do
    let c ← build d
    return c :: (← buildItems rest)

/-- The cells of fields. -/
def buildFields : List (String × Draft) → Effect (List (String × Cell))
  | [] => return []
  | (n, d) :: rest => do
    let c ← build d
    return (n, c) :: (← buildFields rest)

end

/-- Answers a cell and gives it to a register. -/
def yields (dest : Option String) (c : Cell) : Effect RecordAnswer := do
  if let some name := dest then assign name c
  return .value ((← get).store.snapshot c)

/-- Yields what a computation yields, or fails with its error. -/
def attempt {α : Type} (x : Except Error α) : Effect α :=
  liftExcept (Failure.ofError x)

/-- Writes to the store and gives a register the cell after that. -/
def update (name : String) (writing : Store.Writing Cell) : Effect RecordAnswer := do
  assign name (← attempt (← onStore (ExceptT.run writing)))
  return .done

/-- Carries out one step. -/
def perform : RecordStep → Effect RecordAnswer
  | .make draft dest => do yields dest (← build draft)
  | .default t dest => do yields dest (← onStore (Store.load t.default))
  | .construct entries t dest => do
    let encoding ← attempt (compileAll entries)
    yields dest (← onStore (Store.load (← attempt (construct encoding t))))
  | .get source path dest => do
    let c ← cell source
    yields dest (← attempt ((← get).store.get c path))
  | .member source step dest => do
    let c ← cell source
    yields dest (← attempt ((← get).store.member c step))
  | .cast source t dest => do
    let c ← cell source
    match ← onStore (ExceptT.run (Store.cast t c)) with
    | .ok d => yields dest d
    | .error m => throw (.mismatch m)
  | .decode source t dest => do
    let v := (← get).store.snapshot (← cell source)
    let w ← liftExcept (Failure.ofMismatch (t.conform v))
    yields dest (← onStore (Store.load w))
  | .fields source dest => do
    match (← get).store.fields? (← cell source) with
    | some fields => yields dest (.record fields)
    | none => return .nothing
  | .same a b => do
    let c ← cell a
    let d ← cell b
    let store := (← get).store
    return .same ((store.snapshot c).same (store.snapshot d)) (c.sharedWith d)
  | .set target path draft => do
    let x ← build draft
    let c ← cell target
    update target (Store.set x c path)
  | .setMember target step draft => do
    let x ← build draft
    let c ← cell target
    update target (Store.setMember c step x)

/-- The values of all registers. -/
def snapshot (r : Registers) : List (String × Value) :=
  r.cells.map fun (n, c) => (n, r.store.snapshot c)

/-- Carries out steps; each is answered together with the values of all registers after it. -/
def run (r : Registers) :
    List RecordStep → List (Except Failure RecordAnswer × List (String × Value))
  | [] => []
  | s :: rest =>
    let (answer, r') := (ExceptT.run (perform s)).run r
    (answer, r'.snapshot) :: run r' rest

end Registers

end Parley
