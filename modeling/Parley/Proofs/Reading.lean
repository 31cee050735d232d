import Parley.Proofs.Outcome
import Parley.Proofs.Typing
import Parley.Wire.Decode

/-!
# The steps of reading

What it takes for a reader to yield something, part by part: the path of the entry leads somewhere,
the bytes say what the part is, and the part is stored.

* `Reader.run_bind_eq_ok`, `Reader.run_lift_eq_ok`, `Reader.run_mapM_cons_eq_ok` : readers made of
  others.
* `Reader.checkCount` : the check of a count; `Encoding.read_array` : an array is read by it.
* `Encoding.run_read_base`, `Encoding.run_read_enum`, `Encoding.run_read_array` : one entry.
* `run_fill_nil`, `run_fill_cons`, `run_decode_eq_ok` : a list of entries.
-/

namespace Parley

namespace Reader

variable {α β : Type} {c c'' : Cursor}

theorem run_bind_eq_ok {x : Reader α} {f : α → Reader β} {b : β} :
    Reader.run (x >>= f) c = (.ok b, c'') ↔
      ∃ a c', x.run c = (.ok a, c') ∧ (f a).run c' = (.ok b, c'') := by
  constructor
  · exact of_run_bind
  · rintro ⟨a, c', hx, hf⟩
    rw [run_bind hx, hf]

theorem run_lift_eq_ok {x : Except Error α} {a : α} :
    Reader.run (liftM x : Reader α) c = (.ok a, c'') ↔ x = .ok a ∧ c'' = c := by
  rw [run_lift, Prod.mk.injEq, eq_comm (a := c)]

theorem run_mapM_cons_eq_ok {f : α → Reader β} {a : α} {as : List α} {bs : List β} :
    Reader.run ((a :: as).mapM f) c = (.ok bs, c'') ↔
      ∃ b rest c', (f a).run c = (.ok b, c') ∧ Reader.run (as.mapM f) c' = (.ok rest, c'') ∧
        bs = b :: rest := by
  constructor
  · intro h
    rw [List.mapM_cons] at h
    obtain ⟨b, c', hb, h⟩ := of_run_bind h
    obtain ⟨rest, c₁, hrest, h⟩ := of_run_bind h
    cases h
    exact ⟨b, rest, c', hb, hrest, rfl⟩
  · rintro ⟨b, rest, c', hb, hrest, rfl⟩
    exact run_mapM_cons hb hrest

/-- Refuses a count of items that take a byte each when fewer bytes are left. -/
def checkCount (counted : Bool) (count : Nat) : Reader Unit := fun c =>
  if counted && c.remaining < count then (.error (.endOfData c.offset count), c) else (.ok (), c)

theorem run_checkCount (counted : Bool) (count : Nat) (c : Cursor) :
    (checkCount counted count).run c =
      if counted && c.remaining < count then (.error (.endOfData c.offset count), c)
      else (.ok (), c) := rfl

theorem run_checkCount_eq_ok {counted : Bool} {count : Nat} {u : Unit} :
    (checkCount counted count).run c = (.ok u, c'') ↔
      (counted = true → count ≤ c.remaining) ∧ c'' = c := by
  rw [run_checkCount]
  by_cases h : (counted && c.remaining < count) = true
  · rw [if_pos h]
    rw [Bool.and_eq_true, decide_eq_true_eq] at h
    constructor
    · intro he
      cases he
    · rintro ⟨hle, -⟩
      have := hle h.1
      omega
  · rw [if_neg h]
    rw [Bool.and_eq_true, decide_eq_true_eq, not_and, Nat.not_lt] at h
    constructor
    · intro he
      cases he
      exact ⟨h, rfl⟩
    · rintro ⟨-, rfl⟩
      rfl

end Reader

namespace Encoding

variable {t : Ty} {path : Path} {v w : Value} {c c' : Cursor}

theorem run_read_base {kind : BaseKind} :
    ((base kind path).read t v).run c = (.ok w, c') ↔
      ∃ target s x, t.follow path = .ok target ∧ (decodeScalar kind).run c = (.ok s, c') ∧
        cast target (.scalar s) = .ok x ∧ v.set x path = .ok w := by
  rw [read]
  simp only [Reader.run_bind_eq_ok, Reader.run_lift_eq_ok, mapError_eq_ok]
  constructor
  · rintro ⟨target, _, ⟨ht, rfl⟩, s, _, hs, x, _, ⟨hx, rfl⟩, hw, rfl⟩
    exact ⟨target, s, x, ht, hs, hx, hw⟩
  · rintro ⟨target, s, x, ht, hs, hx, hw⟩
    exact ⟨target, c, ⟨ht, rfl⟩, s, c', hs, x, c', ⟨hx, rfl⟩, hw, rfl⟩

theorem run_read_enum {table : EnumTable} :
    ((enum path table).read t v).run c = (.ok w, c') ↔
      ∃ target bits x, t.follow path = .ok target ∧ Reader.word.run c = (.ok bits, c') ∧
        enumValue table target bits = .ok x ∧ v.set x path = .ok w := by
  rw [read]
  simp only [Reader.run_bind_eq_ok, Reader.run_lift_eq_ok]
  constructor
  · rintro ⟨target, _, ⟨ht, rfl⟩, bits, _, hs, x, _, ⟨hx, rfl⟩, hw, rfl⟩
    exact ⟨target, bits, x, ht, hs, hx, hw⟩
  · rintro ⟨target, bits, x, ht, hs, hx, hw⟩
    exact ⟨target, c, ⟨ht, rfl⟩, bits, c', hs, x, c', ⟨hx, rfl⟩, hw, rfl⟩

/-- Reading an array checks its count before it makes room for the items. -/
theorem read_array (path : Path) (element : List Encoding) (t : Ty) (v : Value) :
    (array path element).read t v = (do
      let target ← t.follow path
      let count ← Reader.word
      Reader.checkCount (!element.isEmpty) count
      let u ← target.element
      let items ← constructItems target element count
      v.set (.array (← items.mapM fun item => fill element u item)) path) := by
  rw [read]
  refine bind_congr fun target => bind_congr fun count => funext fun c => ?_
  show Reader.run _ c = Reader.run _ c
  rw [Reader.run_bind (Reader.run_cursor c)]
  by_cases h : (!element.isEmpty && decide (c.remaining < count)) = true
  · simp only [if_pos h]
    rw [Reader.run_bind_error (Reader.run_throw _ c),
      Reader.run_bind_error (x := Reader.checkCount (!element.isEmpty) count) (if_pos h)]
  · simp only [if_neg h]
    rw [Reader.run_bind (x := Reader.checkCount (!element.isEmpty) count) (if_neg h)]

/-- A count that is read either leaves as many bytes as it counts items or counts items that take
none. -/
theorem run_read_array {element : List Encoding} :
    ((array path element).read t v).run c = (.ok w, c') ↔
      ∃ u count c₁ items ws, t.follow path = .ok (.array u) ∧
        Reader.word.run c = (.ok count, c₁) ∧ (element ≠ [] → count ≤ c₁.remaining) ∧
        constructItems (.array u) element count = .ok items ∧
        Reader.run (items.mapM fun item => fill element u item) c₁ = (.ok ws, c') ∧
        v.set (.array ws) path = .ok w := by
  have helement (target u : Ty) : target.element = .ok u ↔ target = .array u :=
    Ty.step_index_eq_ok (i := 0)
  have hcounted : (!element.isEmpty) = true ↔ element ≠ [] := by
    rw [Bool.not_eq_true', List.isEmpty_eq_false_iff]
  rw [read_array]
  simp only [Reader.run_bind_eq_ok, Reader.run_lift_eq_ok, Reader.run_checkCount_eq_ok, helement,
    hcounted]
  constructor
  · rintro ⟨_, _, ⟨ht, rfl⟩, count, c₁, hcount, _, _, ⟨hp, rfl⟩, u, _, ⟨rfl, rfl⟩, items, _,
      ⟨hitems, rfl⟩, ws, _, hws, hw, rfl⟩
    exact ⟨u, count, _, items, ws, ht, hcount, hp, hitems, hws, hw⟩
  · rintro ⟨u, count, c₁, items, ws, ht, hcount, hp, hitems, hws, hw⟩
    exact ⟨_, c, ⟨ht, rfl⟩, count, c₁, hcount, (), c₁, ⟨hp, rfl⟩, u, c₁, ⟨rfl, rfl⟩, items, c₁,
      ⟨hitems, rfl⟩, ws, c', hws, hw, rfl⟩

end Encoding

variable {t : Ty} {v w : Value} {c c' : Cursor}

theorem run_fill_nil : (fill [] t v).run c = (.ok w, c') ↔ w = v ∧ c' = c := by
  rw [fill, Reader.run_pure, Prod.mk.injEq, Except.ok.injEq, eq_comm, eq_comm (a := c)]

theorem run_fill_cons {e : Encoding} {rest : List Encoding} :
    (fill (e :: rest) t v).run c = (.ok w, c') ↔
      ∃ z c₁, (e.read t v).run c = (.ok z, c₁) ∧ (fill rest t z).run c₁ = (.ok w, c') := by
  rw [fill]
  exact Reader.run_bind_eq_ok

theorem run_decode_eq_ok {encoding : List Encoding} :
    (decode encoding t).run c = (.ok w, c') ↔
      ∃ z, construct encoding t = .ok z ∧ (fill encoding t z).run c = (.ok w, c') := by
  rw [decode, Reader.run_bind_eq_ok]
  simp only [Reader.run_lift_eq_ok]
  constructor
  · rintro ⟨z, _, ⟨hz, rfl⟩, h⟩
    exact ⟨z, hz, h⟩
  · rintro ⟨z, hz, h⟩
    exact ⟨z, c, ⟨hz, rfl⟩, h⟩

end Parley
