import Parley.Proofs.Lossless
import Parley.Proofs.Soundness

/-!
# What a cast takes and what it keeps

A cast goes through for the values that are assignable to the type and for no others, and what comes
out says what went in as far as values of the type can say it.

* `Ty.parts` : induction on what a type is made of.
* `castFields_spec`, `exists_castFields_iff` : the fields of a table, told by their names.
* `Value.Assignable`, `exists_cast_iff` : the values that a cast takes.
* `Ty.Keeps`, `keeps_of_cast` : what it keeps of them.
-/

namespace Parley

theorem Ty.sizeOf_lt_of_mem {kind : RecordKind} {name : String} {table : List (String × Ty)}
    {f : String × Ty} (hf : f ∈ table) : sizeOf f.2 < sizeOf (Ty.record kind name table) := by
  obtain ⟨n, t⟩ := f
  have := List.sizeOf_lt_of_mem hf
  simp only [Ty.record.sizeOf_spec, Prod.mk.sizeOf_spec] at this ⊢
  omega

/-- Induction on what a type is made of. -/
@[elab_as_elim]
theorem Ty.parts {P : Ty → Prop} (scalar : ∀ s, P (.scalar s))
    (array : ∀ element, P element → P (.array element))
    (record : ∀ kind name table, (∀ e ∈ table, P e.2) → P (.record kind name table)) : ∀ t, P t
  | .scalar s => scalar s
  | .array element => array element (Ty.parts scalar array record element)
  | .record kind name table => record kind name table fun e _ => Ty.parts scalar array record e.2
termination_by t => sizeOf t
decreasing_by
  · simp only [Ty.array.sizeOf_spec]
    omega
  · exact Ty.sizeOf_lt_of_mem ‹_›

/-! ## The fields of a table -/

theorem Table.ne_of_nodup_cons {α : Type} {m n : String} {a b : α} {table : List (String × α)}
    (hn : (Table.keys ((m, a) :: table)).Nodup) (h : Table.find? n table = some b) : m ≠ n := by
  rintro rfl
  exact (List.nodup_cons.1 hn).1 (Table.mem_keys_of_find? h)

section Fields

variable {table : List (String × Ty)} {fields done rest : Fields}

/-- Each name of the table has what is given under it, cast, or starts at its default; what is given
under other names is left. -/
theorem castFields_spec (hn : (Table.keys table).Nodup)
    (h : castFields table fields = .ok (done, rest)) :
    Table.keys done = Table.keys table ∧
      (∀ n t, Table.find? n table = some t →
        (∀ v, Table.find? n fields = some v →
          ∃ w, Table.find? n done = some w ∧ cast t v = .ok w) ∧
        (Table.find? n fields = none → Table.find? n done = some t.default)) ∧
      ∀ n, n ∈ Table.keys rest ↔ n ∈ Table.keys fields ∧ n ∉ Table.keys table := by
  induction table generalizing fields done with
  | nil =>
    cases h
    refine ⟨rfl, fun n t ht => ?_, fun n => ⟨fun hr => ⟨hr, List.not_mem_nil⟩, And.left⟩⟩
    cases ht
  | cons entry table ih =>
    obtain ⟨m, u⟩ := entry
    obtain ⟨w, done, hgiven, hnone, hdone, rfl⟩ := exists_of_castFields_cons h
    obtain ⟨hkeys, hfind, hrest⟩ := ih (List.nodup_cons.1 hn).2 hdone
    refine ⟨congrArg (m :: ·) hkeys, fun n t ht => ?_, fun n => ?_⟩
    · rw [Table.find?] at ht
      by_cases hm : m = n
      · subst hm
        rw [if_pos rfl] at ht
        cases ht
        refine ⟨fun v hv => ⟨w, if_pos rfl, hgiven v hv⟩, fun hf => ?_⟩
        rw [← hnone hf]
        exact if_pos rfl
      · rw [if_neg hm] at ht
        have := hfind n t ht
        rw [Table.find?_erase, if_neg hm] at this
        rwa [Table.find?, if_neg hm]
    · rw [hrest, Table.mem_keys_erase]
      show _ ↔ _ ∧ n ∉ m :: Table.keys table
      rw [List.mem_cons, not_or, and_comm (a := n ≠ m), and_assoc]

theorem exists_castFields_iff (hn : (Table.keys table).Nodup) :
    (∃ done rest, castFields table fields = .ok (done, rest)) ↔
      ∀ n t v, Table.find? n table = some t → Table.find? n fields = some v →
        ∃ w, cast t v = .ok w := by
  constructor
  · rintro ⟨done, rest, h⟩ n t v ht hv
    obtain ⟨w, -, hw⟩ := ((castFields_spec hn h).2.1 n t ht).1 v hv
    exact ⟨w, hw⟩
  · intro h
    induction table generalizing fields with
    | nil => exact ⟨[], fields, by rw [castFields]⟩
    | cons entry table ih =>
      obtain ⟨m, u⟩ := entry
      have herase : ∀ n t v, Table.find? n table = some t →
          Table.find? n (Table.erase m fields) = some v → ∃ w, cast t v = .ok w := by
        intro n t v ht hv
        have hm := Table.ne_of_nodup_cons hn ht
        rw [Table.find?_erase, if_neg hm] at hv
        exact h n t v ((if_neg hm).trans ht) hv
      obtain ⟨done, rest, hd⟩ := ih (List.nodup_cons.1 hn).2 herase
      rw [castFields]
      cases hf : Table.find? m fields with
      | none => exact ⟨_, _, bind_of_ok hd _⟩
      | some v =>
        obtain ⟨w, hw⟩ := h m u v (if_pos rfl) hf
        exact ⟨_, _, (bind_of_ok hw _).trans (bind_of_ok hd _)⟩

end Fields

theorem cast_record_eq_ok {kind : RecordKind} {name : String} {table : List (String × Ty)}
    {v w : Value} : cast (.record kind name table) v = .ok w ↔
      ∃ kind' fields done, v = .record kind' fields ∧ castFields table fields = .ok (done, []) ∧
        w = .record kind (Table.ofList done) := by
  constructor
  · intro h
    cases v with
    | scalar s => cases h
    | array items => cases h
    | record kind' fields =>
      obtain ⟨⟨done, rest⟩, hd, h⟩ := bind_eq_ok.1 h
      cases rest with
      | cons e rest => cases h
      | nil =>
        cases h
        exact ⟨kind', fields, done, rfl, hd, rfl⟩
  · rintro ⟨kind', fields, done, rfl, hd, rfl⟩
    rw [cast, bind_of_ok hd]
    rfl

/-! ## What goes to a type -/

/-- The scalars that go to a scalar type: an integer to the kinds that have its number and to
floats, floats to either width, nothing to itself and to texts, truth values and texts to
themselves. -/
def Scalar.Assignable : Scalar → ScalarTy → Prop
  | .int n, .int k => k.Holds n.val
  | .int _, .float | .int _, .double => True
  | .float _, .float | .float _, .double | .double _, .float | .double _, .double => True
  | .nil, .nil | .nil, .string => True
  | .bool _, .bool => True
  | .string _, .string => True
  | _, _ => False

/-- The values that go to a type: arrays all of whose items do, and records of either kind all of
whose fields are in the table and go to their types. -/
inductive Value.Assignable : Value → Ty → Prop
  | scalar {s : Scalar} {t : ScalarTy} (h : s.Assignable t) : Assignable (.scalar s) (.scalar t)
  | array {items : List Value} {element : Ty} (h : ∀ item ∈ items, Assignable item element) :
      Assignable (.array items) (.array element)
  | record {kind kind' : RecordKind} {name : String} {fields : Fields}
      {table : List (String × Ty)} (known : ∀ n ∈ Table.keys fields, n ∈ Table.keys table)
      (h : ∀ n t v, Table.find? n table = some t → Table.find? n fields = some v →
        Assignable v t) : Assignable (.record kind' fields) (.record kind name table)

theorem Scalar.exists_cast?_iff {s : Scalar} {t : ScalarTy} :
    (∃ s', s.cast? t = some s') ↔ s.Assignable t := by
  cases t <;> cases s
  case int.int k n =>
    constructor
    · rintro ⟨s', h⟩
      obtain ⟨⟨k, val, hin⟩, hi, -⟩ := Option.map_eq_some_iff.1 h
      obtain ⟨rfl, rfl⟩ := Integer.ofInt?_eq_some hi
      exact hin
    · intro h
      exact ⟨.int ⟨k, n.val, h⟩, congrArg (Option.map Scalar.int) (dif_pos h)⟩
  all_goals first
    | exact ⟨fun _ => trivial, fun _ => ⟨_, rfl⟩⟩
    | exact ⟨by rintro ⟨_, ⟨⟩⟩, False.elim⟩

theorem exists_cast_scalar_iff {s : ScalarTy} {v : Value} :
    (∃ w, cast (.scalar s) v = .ok w) ↔ v.Assignable (.scalar s) := by
  constructor
  · rintro ⟨w, h⟩
    obtain ⟨s', hs, -⟩ := bind_eq_ok.1 h
    obtain ⟨x, rfl, hx⟩ := castScalar_eq_ok.1 hs
    exact .scalar (Scalar.exists_cast?_iff.1 ⟨s', hx⟩)
  · rintro (⟨h⟩ | _ | _)
    obtain ⟨s', hs⟩ := Scalar.exists_cast?_iff.2 h
    exact ⟨_, cast_scalar_of_cast? hs⟩

/-- A cast goes through for exactly what is assignable to the type. -/
theorem exists_cast_iff {t : Ty} {v : Value} (hd : t.Distinct) :
    (∃ w, cast t v = .ok w) ↔ v.Assignable t := by
  induction t using Ty.parts generalizing v with
  | scalar s => exact exists_cast_scalar_iff
  | array element ih =>
    constructor
    · rintro ⟨w, h⟩
      cases v with
      | scalar s => cases h
      | record kind fields => cases h
      | array items =>
        obtain ⟨ws, hw, -⟩ := bind_eq_ok.1 h
        refine .array fun item hi => (ih hd).1 ?_
        obtain ⟨w, -, hw⟩ := exists_mem_of_forall₂ (mapM_eq_ok.1 hw) hi
        exact ⟨w, hw⟩
    · rintro (_ | ⟨h⟩ | _)
      obtain ⟨ws, hws, -⟩ := exists_mapM_forall₂ (P := fun _ _ => True) fun item hi => by
        obtain ⟨w, hw⟩ := (ih hd).2 (h item hi)
        exact ⟨w, hw, trivial⟩
      exact ⟨_, bind_eq_ok.2 ⟨ws, hws, rfl⟩⟩
  | record kind name table ih =>
    have hfield {n : String} {t : Ty} {v : Value} (ht : Table.find? n table = some t) :
        (∃ w, cast t v = .ok w) ↔ v.Assignable t :=
      ih (n, t) (Table.mem_of_find? ht) (hd.2.of_find? ht)
    constructor
    · rintro ⟨w, h⟩
      obtain ⟨kind', fields, done, rfl, hdone, -⟩ := cast_record_eq_ok.1 h
      refine .record (fun n hmem => ?_) fun n t v ht hv =>
        (hfield ht).1 ((exists_castFields_iff hd.1).1 ⟨done, [], hdone⟩ n t v ht hv)
      by_contra hnot
      exact List.not_mem_nil (((castFields_spec hd.1 hdone).2.2 n).2 ⟨hmem, hnot⟩)
    · rintro (_ | _ | ⟨hknown, h⟩)
      obtain ⟨done, rest, hdone⟩ := (exists_castFields_iff hd.1).2 fun n t v ht hv =>
        (hfield ht).2 (h n t v ht hv)
      -- what is left over is given under names that the table does not list
      obtain rfl : rest = [] := by
        refine List.eq_nil_iff_forall_not_mem.2 fun e he => ?_
        obtain ⟨hgiven, hnot⟩ :=
          ((castFields_spec hd.1 hdone).2.2 e.1).1 (List.mem_map_of_mem he)
        exact hnot (hknown e.1 hgiven)
      exact ⟨_, cast_record_eq_ok.2 ⟨_, _, done, rfl, hdone, rfl⟩⟩

/-! ## What is kept -/

/-- What a cast keeps of a scalar: the number of an integer that stays one, truth values, texts and
floats that stay as wide. Nothing becomes the empty text. -/
def Scalar.Kept : Scalar → Scalar → Prop
  | .int m, .int n => m.val = n.val
  | .int _, .float _ | .int _, .double _ | .float _, .double _ | .double _, .float _ => True
  | .nil, .string b => b = ""
  | a, b => a = b

/-- What a cast keeps of a value: of scalars as above, of arrays their length and of each item and
each field what a cast keeps of it. Fields that a record lacked start at their default. -/
inductive Ty.Keeps : Ty → Value → Value → Prop
  | scalar {t : ScalarTy} {s s' : Scalar} (h : s.Kept s') :
      Keeps (.scalar t) (.scalar s) (.scalar s')
  | array {element : Ty} {items items' : List Value} (length : items.length = items'.length)
      (h : ∀ (k : Nat) v w, items[k]? = some v → items'[k]? = some w → Keeps element v w) :
      Keeps (.array element) (.array items) (.array items')
  | record {kind kind' : RecordKind} {name : String} {table : List (String × Ty)}
      {fields fields' : Fields}
      (given : ∀ n t v w, Table.find? n table = some t → Table.find? n fields = some v →
        Table.find? n fields' = some w → Keeps t v w)
      (missing : ∀ n t, Table.find? n table = some t → Table.find? n fields = none →
        Table.find? n fields' = some t.default) :
      Keeps (.record kind name table) (.record kind' fields) (.record kind fields')

theorem Scalar.kept_of_cast? {s s' : Scalar} {t : ScalarTy} (h : s.cast? t = some s') :
    s.Kept s' := by
  cases t <;> cases s
  case int.int k n =>
    obtain ⟨i, hi, rfl⟩ := Option.map_eq_some_iff.1 h
    exact (Integer.ofInt?_eq_some hi).2.symm
  all_goals cases h
  all_goals simp [Scalar.Kept]

theorem keeps_of_cast {t : Ty} {v w : Value} (hd : t.Distinct) (h : cast t v = .ok w) :
    t.Keeps v w := by
  induction t using Ty.parts generalizing v w with
  | scalar s =>
    obtain ⟨s', hs, hw⟩ := bind_eq_ok.1 h
    cases hw
    obtain ⟨x, rfl, hx⟩ := castScalar_eq_ok.1 hs
    exact .scalar (Scalar.kept_of_cast? hx)
  | array element ih =>
    cases v with
    | scalar s => cases h
    | record kind fields => cases h
    | array items =>
      obtain ⟨ws, hws, hw⟩ := bind_eq_ok.1 h
      cases hw
      have hall := mapM_eq_ok.1 hws
      refine .array hall.length_eq fun k v w hv hw => ih hd ?_
      obtain ⟨w', hw', hc⟩ := getElem?_of_forall₂ hall hv
      cases hw.symm.trans hw'
      exact hc
  | record kind name table ih =>
    obtain ⟨kind', fields, done, rfl, hdone, rfl⟩ := cast_record_eq_ok.1 h
    obtain ⟨hkeys, hfind, -⟩ := castFields_spec hd.1 hdone
    have hn : (Table.keys done).Nodup := by
      rw [hkeys]
      exact hd.1
    have hlook (n : String) := Table.find?_ofList hn n
    refine .record (fun n t v w ht hv hw => ?_) fun n t ht hf => ?_
    · obtain ⟨w', hw', hc⟩ := (hfind n t ht).1 v hv
      rw [hlook] at hw
      cases hw.symm.trans hw'
      exact ih (n, t) (Table.mem_of_find? ht) (hd.2.of_find? ht) hc
    · rw [hlook]
      exact (hfind n t ht).2 hf

end Parley
