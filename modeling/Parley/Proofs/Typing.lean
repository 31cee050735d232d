import Parley.Proofs.Paths
import Parley.Value.Cast

/-!
# Values of a type

* `Ty.Distinct` : no record inside a type has two fields of one name.
* `Ty.Has` : the values of a type; `Ty.has_default` : the default is one.
* `Has.step`, `Has.get` : a part that the type has is there, with its type.
* `Has.setStep`, `Has.set` : putting a value of the right type in its place keeps the whole typed.
-/

namespace Parley

/-- The type of a scalar. -/
def Scalar.type : Scalar → ScalarTy
  | .nil => .nil
  | .bool _ => .bool
  | .int n => .int n.kind
  | .float _ => .float
  | .double _ => .double
  | .string _ => .string

namespace Scalar

theorem exists_bool {s : Scalar} (h : s.type = .bool) : ∃ b, s = .bool b := by
  cases s <;> cases h
  exact ⟨_, rfl⟩

theorem exists_int {s : Scalar} {k : IntKind} (h : s.type = .int k) :
    ∃ n, s = .int n ∧ n.kind = k := by
  cases s <;> cases h
  exact ⟨_, rfl, rfl⟩

theorem exists_float {s : Scalar} (h : s.type = .float) : ∃ bits, s = .float bits := by
  cases s <;> cases h
  exact ⟨_, rfl⟩

theorem exists_double {s : Scalar} (h : s.type = .double) : ∃ bits, s = .double bits := by
  cases s <;> cases h
  exact ⟨_, rfl⟩

theorem exists_string {s : Scalar} (h : s.type = .string) : ∃ text, s = .string text := by
  cases s <;> cases h
  exact ⟨_, rfl⟩

end Scalar

mutual

/-- No record inside the type has two fields of one name. -/
def Ty.Distinct : Ty → Prop
  | .scalar _ => True
  | .array element => element.Distinct
  | .record _ _ table => (Table.keys table).Nodup ∧ Ty.DistinctFields table

/-- No field has a type with two fields of one name. -/
def Ty.DistinctFields : List (String × Ty) → Prop
  | [] => True
  | (_, t) :: table => t.Distinct ∧ Ty.DistinctFields table

end

mutual

/-- The values of a type: scalars of the type, arrays of its items, records of its kind with its
fields and no others. -/
def Ty.Has : Ty → Value → Prop
  | .scalar t, .scalar s => s.type = t
  | .array element, .array items => ∀ item ∈ items, element.Has item
  | .record kind _ table, .record kind' fields => kind' = kind ∧ Table.Sorted fields ∧
    (∀ n ∈ Table.keys fields, n ∈ Table.keys table) ∧ Ty.HasFields table fields
  | _, _ => False
termination_by structural t => t

/-- Each field of a table is there with its type. -/
def Ty.HasFields : List (String × Ty) → Fields → Prop
  | [], _ => True
  | (n, t) :: table, fields =>
    (match Table.find? n fields with
      | some v => t.Has v
      | none => False) ∧ Ty.HasFields table fields
termination_by structural table => table

end

mutual

instance Ty.decidableDistinct : ∀ t : Ty, Decidable t.Distinct
  | .scalar _ => inferInstanceAs (Decidable True)
  | .array element => Ty.decidableDistinct element
  | .record _ _ table =>
    have := Ty.decidableDistinctFields table
    inferInstanceAs (Decidable (_ ∧ _))

instance Ty.decidableDistinctFields : ∀ table, Decidable (Ty.DistinctFields table)
  | [] => inferInstanceAs (Decidable True)
  | (_, t) :: table =>
    have := Ty.decidableDistinct t
    have := Ty.decidableDistinctFields table
    inferInstanceAs (Decidable (_ ∧ _))

end

mutual

instance Ty.decidableHas : ∀ (t : Ty) (v : Value), Decidable (t.Has v)
  | .scalar t, .scalar s => inferInstanceAs (Decidable (s.type = t))
  | .array element, .array items =>
    have := Ty.decidableHas element
    inferInstanceAs (Decidable (∀ item ∈ items, element.Has item))
  | .record _ _ table, .record _ fields =>
    have := Ty.decidableHasFields table fields
    inferInstanceAs (Decidable (_ ∧ _ ∧ _ ∧ _))
  | .scalar _, .array _ | .scalar _, .record _ _ => inferInstanceAs (Decidable False)
  | .array _, .scalar _ | .array _, .record _ _ => inferInstanceAs (Decidable False)
  | .record _ _ _, .scalar _ | .record _ _ _, .array _ => inferInstanceAs (Decidable False)

instance Ty.decidableHasFields : ∀ table fields, Decidable (Ty.HasFields table fields)
  | [], _ => inferInstanceAs (Decidable True)
  | (n, t) :: table, fields =>
    have := Ty.decidableHasFields table fields
    have : Decidable (match Table.find? n fields with
        | some v => t.Has v
        | none => False) :=
      match Table.find? n fields with
      | some v => Ty.decidableHas t v
      | none => inferInstanceAs (Decidable False)
    inferInstanceAs (Decidable (_ ∧ _))

end

namespace Ty

/-! ## Shapes of typed values -/

theorem has_scalar {t : ScalarTy} {v : Value} :
    (scalar t).Has v ↔ ∃ s : Scalar, v = .scalar s ∧ s.type = t := by
  cases v <;> simp [Has]

theorem has_array {u : Ty} {v : Value} :
    (array u).Has v ↔ ∃ items, v = .array items ∧ ∀ item ∈ items, u.Has item := by
  cases v <;> simp [Has]

theorem has_record {kind : RecordKind} {name : String} {table : List (String × Ty)} {v : Value} :
    (record kind name table).Has v ↔ ∃ fields, v = .record kind fields ∧ Table.Sorted fields ∧
      (∀ n ∈ Table.keys fields, n ∈ Table.keys table) ∧ HasFields table fields := by
  cases v with
  | record kind' fields =>
    constructor
    · rintro ⟨rfl, h⟩
      exact ⟨fields, rfl, h⟩
    · rintro ⟨_, he, h⟩
      cases he
      exact ⟨rfl, h⟩
  | _ => simp [Has]

theorem hasFields_cons {n : String} {t : Ty} {table : List (String × Ty)} {fields : Fields} :
    HasFields ((n, t) :: table) fields ↔
      (∃ v, Table.find? n fields = some v ∧ t.Has v) ∧ HasFields table fields := by
  rw [HasFields]
  cases Table.find? n fields <;> simp

/-! ## Tables of fields -/

theorem lookup_eq_find? (n : String) (table : List (String × Ty)) :
    lookup n table = Table.find? n table := by
  induction table with
  | nil => rfl
  | cons entry rest ih => rw [lookup, Table.find?, ih]

theorem DistinctFields.of_find? {table : List (String × Ty)} {n : String} {t : Ty}
    (h : DistinctFields table) (hn : Table.find? n table = some t) : t.Distinct := by
  induction table with
  | nil => cases hn
  | cons entry rest ih =>
    obtain ⟨m, u⟩ := entry
    rw [DistinctFields] at h
    rw [Table.find?] at hn
    by_cases hm : m = n
    · rw [if_pos hm] at hn
      cases hn
      exact h.1
    · rw [if_neg hm] at hn
      exact ih h.2 hn

theorem HasFields.of_find? {table : List (String × Ty)} {fields : Fields} {n : String} {t : Ty}
    (h : HasFields table fields) (hn : Table.find? n table = some t) :
    ∃ v, Table.find? n fields = some v ∧ t.Has v := by
  induction table with
  | nil => cases hn
  | cons entry rest ih =>
    obtain ⟨m, u⟩ := entry
    rw [hasFields_cons] at h
    rw [Table.find?] at hn
    by_cases hm : m = n
    · rw [if_pos hm] at hn
      cases hn
      exact hm ▸ h.1
    · rw [if_neg hm] at hn
      exact ih h.2 hn

theorem hasFields_of_find? {table : List (String × Ty)} {fields : Fields}
    (hd : (Table.keys table).Nodup)
    (h : ∀ n t, Table.find? n table = some t → ∃ v, Table.find? n fields = some v ∧ t.Has v) :
    HasFields table fields := by
  induction table with
  | nil => exact trivial
  | cons entry rest ih =>
    obtain ⟨m, u⟩ := entry
    rw [Table.keys, List.map_cons, List.nodup_cons] at hd
    refine hasFields_cons.2 ⟨h m u (by rw [Table.find?, if_pos rfl]),
      ih hd.2 fun n t hn => h n t ?_⟩
    have hm : m ≠ n := fun he => hd.1 (he ▸ Table.mem_keys_of_find? hn)
    rw [Table.find?, if_neg hm, hn]

/-! ## Defaults -/

theorem keys_defaults (table : List (String × Ty)) :
    Table.keys (defaults table) = Table.keys table := by
  induction table with
  | nil => rfl
  | cons entry rest ih =>
    simp only [Table.keys, defaults, List.map_cons] at ih ⊢
    rw [ih]

theorem find?_defaults (n : String) (table : List (String × Ty)) :
    Table.find? n (defaults table) = (Table.find? n table).map Ty.default := by
  induction table with
  | nil => rfl
  | cons entry rest ih =>
    obtain ⟨m, t⟩ := entry
    rw [defaults, Table.find?, Table.find?, ih]
    by_cases hm : m = n
    · rw [if_pos hm, if_pos hm, Option.map_some]
    · rw [if_neg hm, if_neg hm]

theorem mem_defaults {table : List (String × Ty)} {e : String × Value} (h : e ∈ defaults table) :
    ∃ f ∈ table, e = (f.1, f.2.default) := by
  induction table with
  | nil => cases h
  | cons f rest ih =>
    rcases List.mem_cons.1 h with rfl | h
    · exact ⟨f, List.mem_cons_self, rfl⟩
    · obtain ⟨g, hg, rfl⟩ := ih h
      exact ⟨g, List.mem_cons_of_mem _ hg, rfl⟩

theorem type_default (t : ScalarTy) : t.default.type = t := by
  cases t <;> rfl

mutual

theorem has_default : ∀ {t : Ty}, t.Distinct → t.Has t.default
  | .scalar s, _ => type_default s
  | .array element, _ => fun _ h => nomatch h
  | .record kind _ table, h => by
    have hn : (Table.keys (defaults table)).Nodup := by rw [keys_defaults]; exact h.1
    refine ⟨rfl, Table.sorted_ofList _, ?_, hasFields_of_find? h.1 fun n t ht => ?_⟩
    · intro n hmem
      rwa [← Table.contains_iff_mem_keys, Table.contains, Table.find?_ofList hn, ← Table.contains,
        Table.contains_iff_mem_keys, keys_defaults] at hmem
    · refine ⟨t.default, ?_, hasDefaults h.2 n t ht⟩
      rw [Table.find?_ofList hn, find?_defaults, ht, Option.map_some]

theorem hasDefaults : ∀ {table : List (String × Ty)}, DistinctFields table →
    ∀ n t, Table.find? n table = some t → t.Has t.default
  | [], _, _, _, hn => nomatch hn
  | (m, u) :: rest, h, n, t, hn => by
    rw [Table.find?] at hn
    by_cases hm : m = n
    · rw [if_pos hm] at hn
      cases hn
      exact has_default h.1
    · rw [if_neg hm] at hn
      exact hasDefaults h.2 n t hn

end

/-! ## One step -/

theorem step_index_eq_ok {t u : Ty} {i : Int} : t.step (.index i) = .ok u ↔ t = .array u := by
  cases t <;> simp [step, element]

theorem step_name_eq_ok {t u : Ty} {n : String} :
    t.step (.name n) = .ok u ↔
      ∃ kind name table, t = .record kind name table ∧ Table.find? n table = some u := by
  cases t with
  | scalar s => simp [step, field, record?]
  | array e => simp [step, field, record?]
  | record kind name table =>
    simp only [step, field, record?, lookup_eq_find?]
    constructor
    · intro h
      cases hn : Table.find? n table with
      | none => rw [hn] at h; cases h
      | some v =>
        rw [hn] at h
        cases h
        exact ⟨kind, name, table, rfl, hn⟩
    · rintro ⟨_, _, _, ht, hn⟩
      cases ht
      rw [hn]

theorem Distinct.element {u : Ty} (h : (Ty.array u).Distinct) : u.Distinct := h

theorem Distinct.step {t u : Ty} {s : Step} (h : t.Distinct) (hs : t.step s = .ok u) :
    u.Distinct := by
  cases s with
  | index i =>
    obtain rfl := step_index_eq_ok.1 hs
    exact h
  | name n =>
    obtain ⟨kind, name, table, rfl, hn⟩ := step_name_eq_ok.1 hs
    exact h.2.of_find? hn

theorem Has.step {t u : Ty} {v x : Value} {s : Step} (h : t.Has v) (hs : t.step s = .ok u)
    (hx : v.member s = .ok x) : u.Has x := by
  cases s with
  | index i =>
    obtain rfl := step_index_eq_ok.1 hs
    obtain ⟨items, rfl, hi⟩ := has_array.1 h
    obtain ⟨_, k, ha, -, hk⟩ := Value.member_index_eq_ok.1 hx
    cases ha
    exact hi x (List.mem_of_getElem? hk)
  | name n =>
    obtain ⟨kind, name, table, rfl, hn⟩ := step_name_eq_ok.1 hs
    obtain ⟨fields, rfl, -, -, hf⟩ := has_record.1 h
    obtain ⟨y, hy, ht⟩ := hf.of_find? hn
    obtain ⟨_, _, hr, hx⟩ := Value.member_name_eq_ok.1 hx
    cases hr
    rw [hx] at hy
    cases hy
    exact ht

theorem Has.setStep {t u : Ty} {v x w : Value} {s : Step} (hd : t.Distinct) (h : t.Has v)
    (hs : t.step s = .ok u) (hx : u.Has x) (hw : v.setMember s x = .ok w) : t.Has w := by
  cases s with
  | index i =>
    obtain rfl := step_index_eq_ok.1 hs
    obtain ⟨items, rfl, hi⟩ := has_array.1 h
    obtain ⟨_, k, ha, -, -, rfl⟩ := Value.setMember_index_eq_ok.1 hw
    cases ha
    refine has_array.2 ⟨_, rfl, fun y hy => ?_⟩
    rcases List.mem_or_eq_of_mem_set hy with hy | rfl
    · exact hi y hy
    · exact hx
  | name n =>
    obtain ⟨kind, name, table, rfl, hn⟩ := step_name_eq_ok.1 hs
    obtain ⟨fields, rfl, ho, hk, hf⟩ := has_record.1 h
    obtain ⟨_, _, changed, hr, hc, rfl⟩ := Value.setMember_name_eq_ok.1 hw
    cases hr
    refine has_record.2 ⟨changed, rfl, ho.set? hc, Table.keys_set? hc ▸ hk,
      hasFields_of_find? hd.1 fun m t ht => ?_⟩
    rw [Table.find?_set? m hc]
    by_cases hm : n = m
    · subst hm
      rw [hn] at ht
      cases ht
      exact ⟨x, if_pos rfl, hx⟩
    · rw [if_neg hm]
      exact hf.of_find? ht

/-! ## Paths -/

theorem follow_cons {t u : Ty} {s : Step} {p : Path} :
    t.follow (s :: p) = .ok u ↔ ∃ t', t.step s = .ok t' ∧ t'.follow p = .ok u :=
  bind_eq_ok

theorem follow_append {t u w : Ty} {p q : Path} (hp : t.follow p = .ok u)
    (hq : u.follow q = .ok w) : t.follow (p ++ q) = .ok w := by
  induction p generalizing t with
  | nil =>
    cases hp
    exact hq
  | cons s p ih =>
    obtain ⟨t', hs, hp⟩ := follow_cons.1 hp
    exact follow_cons.2 ⟨t', hs, ih hp⟩

theorem Distinct.follow {p : Path} {t u : Ty} (h : t.Distinct) (hp : t.follow p = .ok u) :
    u.Distinct := by
  induction p generalizing t with
  | nil =>
    cases hp
    exact h
  | cons s p ih =>
    obtain ⟨t', hs, hp⟩ := follow_cons.1 hp
    exact ih (h.step hs) hp

theorem Has.get {p : Path} {t u : Ty} {v x : Value} (h : t.Has v) (hp : t.follow p = .ok u)
    (hx : v.get p = .ok x) : u.Has x := by
  induction p generalizing t v with
  | nil =>
    cases hp
    cases hx
    exact h
  | cons s p ih =>
    obtain ⟨t', hs, hp⟩ := follow_cons.1 hp
    obtain ⟨y, hy, hx⟩ := Value.get_cons.1 hx
    exact ih (h.step hs hy) hp hx

theorem Has.set {p : Path} {t u : Ty} {v x w : Value} (hd : t.Distinct) (h : t.Has v)
    (hp : t.follow p = .ok u) (hx : u.Has x) (hw : v.set x p = .ok w) : t.Has w := by
  induction p generalizing t v w with
  | nil =>
    cases hp
    cases hw
    exact hx
  | cons s p ih =>
    obtain ⟨t', hs, hp⟩ := follow_cons.1 hp
    obtain ⟨y, z, hy, hz, hw⟩ := Value.set_cons.1 hw
    exact h.setStep hd hs (ih (hd.step hs) (h.step hs hy) hp hz) hw

end Ty

end Parley
