import Parley.Proofs.Outcome
import Parley.Proofs.Tables
import Parley.Value.Access

/-!
# Reading and writing at paths

* `Path.Plain` : no position of a path is negative.
* `Path.Apart` : two paths that part ways, so neither leads to a part of what the other leads to.
* `Value.get_set_self`, `Value.get_set_apart` : what is found after a part was replaced.
* `Value.exists_set` : a part that is there can be replaced.
-/

namespace Parley

/-- The step is no negative position. -/
def Step.Plain : Step → Prop
  | .index i => 0 ≤ i
  | .name _ => True

instance : ∀ s : Step, Decidable s.Plain
  | .index i => inferInstanceAs (Decidable (0 ≤ i))
  | .name _ => inferInstanceAs (Decidable True)

/-- No position of the path is negative. -/
def Path.Plain (p : Path) : Prop :=
  ∀ s ∈ p, s.Plain

instance (p : Path) : Decidable p.Plain :=
  inferInstanceAs (Decidable (∀ s ∈ p, s.Plain))

/-- Neither path leads on from where the other one ends. -/
def Path.Apart (p q : Path) : Prop :=
  ¬ p <+: q ∧ ¬ q <+: p

instance (p q : Path) : Decidable (p.Apart q) :=
  inferInstanceAs (Decidable (_ ∧ _))

namespace Path

theorem Plain.tail {s : Step} {p : Path} (h : Plain (s :: p)) : Plain p :=
  fun t ht => h t (List.mem_cons_of_mem _ ht)

theorem Apart.symm {p q : Path} (h : p.Apart q) : q.Apart p :=
  ⟨h.2, h.1⟩

/-- Paths apart differ in their first step, or share it and are apart after it. -/
theorem apart_cons {s t : Step} {p q : Path} :
    Apart (s :: p) (t :: q) ↔ s ≠ t ∨ s = t ∧ p.Apart q := by
  unfold Apart
  rw [List.cons_prefix_cons, List.cons_prefix_cons]
  by_cases h : s = t
  · subst h
    simp
  · simp [h, Ne.symm h]

theorem not_nil_apart (q : Path) : ¬ Apart [] q :=
  fun h => h.1 (List.nil_prefix)

theorem not_apart_nil (p : Path) : ¬ Apart p [] :=
  fun h => h.2 (List.nil_prefix)

end Path

/-! ## Positions -/

theorem position_eq_ok {i : Int} {k : Nat} : position i = .ok k ↔ i = k := by
  unfold position
  by_cases h : i < 0
  · rw [if_pos h]
    constructor
    · intro he
      cases he
    · intro he
      omega
  · rw [if_neg h]
    constructor
    · intro he
      cases he
      omega
    · intro he
      exact congrArg Except.ok (by omega)

namespace Value

/-! ## One step -/

theorem member_index_eq_ok {v x : Value} {i : Int} :
    v.member (.index i) = .ok x ↔
      ∃ items k, v = .array items ∧ i = (k : Nat) ∧ items[k]? = some x := by
  constructor
  · intro h
    cases v with
    | scalar s => cases h
    | record kind fields => cases h
    | array items =>
      obtain ⟨k, hk, h⟩ := bind_eq_ok.1 h
      cases hx : items[k]? with
      | none => rw [hx] at h; cases h
      | some y =>
        rw [hx] at h
        cases h
        exact ⟨items, k, rfl, position_eq_ok.1 hk, hx⟩
  · rintro ⟨items, k, rfl, hi, hx⟩
    refine bind_eq_ok.2 ⟨k, position_eq_ok.2 hi, ?_⟩
    rw [hx]
    rfl

theorem member_name_eq_ok {v x : Value} {n : String} :
    v.member (.name n) = .ok x ↔
      ∃ kind fields, v = .record kind fields ∧ Table.find? n fields = some x := by
  constructor
  · intro h
    cases v with
    | scalar s => cases h
    | array items => cases h
    | record kind fields =>
      cases hx : Table.find? n fields with
      | none => rw [member, hx] at h; cases h
      | some y =>
        rw [member, hx] at h
        cases h
        exact ⟨kind, fields, rfl, hx⟩
  · rintro ⟨kind, fields, rfl, hx⟩
    rw [member, hx]

theorem setMember_index_eq_ok {v x w : Value} {i : Int} :
    v.setMember (.index i) x = .ok w ↔
      ∃ items k, v = .array items ∧ i = (k : Nat) ∧ k < items.length ∧
        w = .array (items.set k x) := by
  constructor
  · intro h
    cases v with
    | scalar s => cases h
    | record kind fields => cases h
    | array items =>
      obtain ⟨k, hk, h⟩ := bind_eq_ok.1 h
      by_cases hl : k < items.length
      · rw [if_pos hl] at h
        cases h
        exact ⟨items, k, rfl, position_eq_ok.1 hk, hl, rfl⟩
      · rw [if_neg hl] at h
        cases h
  · rintro ⟨items, k, rfl, hi, hl, rfl⟩
    refine bind_eq_ok.2 ⟨k, position_eq_ok.2 hi, ?_⟩
    rw [if_pos hl]
    rfl

theorem setMember_name_eq_ok {v x w : Value} {n : String} :
    v.setMember (.name n) x = .ok w ↔
      ∃ kind fields changed, v = .record kind fields ∧ Table.set? n x fields = some changed ∧
        w = .record kind changed := by
  constructor
  · intro h
    cases v with
    | scalar s => cases h
    | array items => cases h
    | record kind fields =>
      cases hx : Table.set? n x fields with
      | none => simp only [setMember, hx] at h; cases h
      | some changed =>
        simp only [setMember, hx] at h
        cases h
        exact ⟨kind, fields, changed, rfl, hx, rfl⟩
  · rintro ⟨kind, fields, changed, rfl, hx, rfl⟩
    simp only [setMember, hx]

theorem member_setMember_self {v x w : Value} {s : Step} (h : v.setMember s x = .ok w) :
    w.member s = .ok x := by
  cases s with
  | index i =>
    obtain ⟨items, k, rfl, hi, hl, rfl⟩ := setMember_index_eq_ok.1 h
    exact member_index_eq_ok.2 ⟨_, k, rfl, hi, List.getElem?_set_self hl⟩
  | name n =>
    obtain ⟨kind, fields, changed, rfl, hc, rfl⟩ := setMember_name_eq_ok.1 h
    refine member_name_eq_ok.2 ⟨kind, changed, rfl, ?_⟩
    rw [Table.find?_set? n hc, if_pos rfl]

/-- Replacing one part leaves the others: a different step finds what it found before. -/
theorem toOption_member_setMember_ne {v x w : Value} {s t : Step} (h : v.setMember s x = .ok w)
    (hne : s ≠ t) : (w.member t).toOption = (v.member t).toOption := by
  apply Option.ext
  intro y
  rw [toOption_eq_some, toOption_eq_some]
  cases s with
  | index i =>
    obtain ⟨items, k, rfl, rfl, -, rfl⟩ := setMember_index_eq_ok.1 h
    cases t with
    | name n => exact iff_of_false nofun nofun
    | index j =>
      simp only [member_index_eq_ok, array.injEq, exists_and_left, exists_eq_left']
      refine exists_congr fun m => and_congr_right fun hj => ?_
      have hkm : k ≠ m := by
        rintro rfl
        exact hne (by rw [hj])
      rw [List.getElem?_set_ne hkm]
  | name n =>
    obtain ⟨kind, fields, changed, rfl, hc, rfl⟩ := setMember_name_eq_ok.1 h
    cases t with
    | index j => exact iff_of_false nofun nofun
    | name m =>
      have hnm : n ≠ m := fun he => hne (congrArg Step.name he)
      simp only [member_name_eq_ok, record.injEq, and_assoc, exists_and_left, exists_eq_left']
      rw [Table.find?_set? m hc, if_neg hnm]

theorem member_setMember_ne {v x y w : Value} {s t : Step} (h : v.setMember s x = .ok w)
    (hne : s ≠ t) (hy : v.member t = .ok y) : w.member t = .ok y :=
  toOption_eq_some.1 ((toOption_member_setMember_ne h hne).trans (toOption_eq_some.2 hy))

theorem exists_setMember {v y : Value} {s : Step} (h : v.member s = .ok y) (x : Value) :
    ∃ w, v.setMember s x = .ok w := by
  cases s with
  | index i =>
    obtain ⟨items, k, rfl, hi, hk⟩ := member_index_eq_ok.1 h
    have hl : k < items.length := (List.getElem?_eq_some_iff.1 hk).1
    exact ⟨_, setMember_index_eq_ok.2 ⟨items, k, rfl, hi, hl, rfl⟩⟩
  | name n =>
    obtain ⟨kind, fields, rfl, hn⟩ := member_name_eq_ok.1 h
    obtain ⟨changed, hc⟩ := Table.exists_set? (Table.mem_keys_of_find? hn) x
    exact ⟨_, setMember_name_eq_ok.2 ⟨kind, fields, changed, rfl, hc, rfl⟩⟩

/-! ## Paths -/

theorem get_cons {v x : Value} {s : Step} {p : Path} :
    v.get (s :: p) = .ok x ↔ ∃ y, v.member s = .ok y ∧ y.get p = .ok x :=
  bind_eq_ok

theorem get_append {v x : Value} {p q : Path} :
    v.get (p ++ q) = .ok x ↔ ∃ y, v.get p = .ok y ∧ y.get q = .ok x := by
  induction p generalizing v with
  | nil =>
    constructor
    · intro h
      exact ⟨v, rfl, h⟩
    · rintro ⟨_, ⟨⟩, h⟩
      exact h
  | cons s p ih =>
    simp only [List.cons_append, get_cons, ih]
    constructor
    · rintro ⟨y, hy, z, hz, hx⟩
      exact ⟨z, ⟨y, hy, hz⟩, hx⟩
    · rintro ⟨z, ⟨y, hy, hz⟩, hx⟩
      exact ⟨y, hy, z, hz, hx⟩

theorem set_cons {v x w : Value} {s : Step} {p : Path} :
    v.set x (s :: p) = .ok w ↔
      ∃ y z, v.member s = .ok y ∧ y.set x p = .ok z ∧ v.setMember s z = .ok w := by
  constructor
  · intro h
    obtain ⟨y, hy, h⟩ := bind_eq_ok.1 h
    obtain ⟨z, hz, h⟩ := bind_eq_ok.1 h
    exact ⟨y, z, hy, hz, h⟩
  · rintro ⟨y, z, hy, hz, h⟩
    exact bind_eq_ok.2 ⟨y, hy, bind_eq_ok.2 ⟨z, hz, h⟩⟩

theorem get_set_self {p : Path} {v x w : Value} (h : v.set x p = .ok w) : w.get p = .ok x := by
  induction p generalizing v w with
  | nil =>
    cases h
    rfl
  | cons s p ih =>
    obtain ⟨y, z, -, hz, hw⟩ := set_cons.1 h
    exact get_cons.2 ⟨z, member_setMember_self hw, ih hz⟩

theorem toOption_get_cons (v : Value) (s : Step) (p : Path) :
    (v.get (s :: p)).toOption = (v.member s).toOption.bind fun y => (y.get p).toOption :=
  toOption_bind _ _

/-- Replacing the part at a path leaves what is found at paths apart from it, and what is not found
there is still not found. -/
theorem toOption_get_set_apart {p q : Path} {v x w : Value} (h : v.set x p = .ok w)
    (ha : p.Apart q) : (w.get q).toOption = (v.get q).toOption := by
  induction p generalizing q v w with
  | nil => exact absurd ha (Path.not_nil_apart q)
  | cons s p ih =>
    obtain ⟨a, b, hv, hb, hw⟩ := set_cons.1 h
    cases q with
    | nil => exact absurd ha (Path.not_apart_nil _)
    | cons t q =>
      rw [toOption_get_cons, toOption_get_cons]
      rcases Path.apart_cons.1 ha with hne | ⟨rfl, hp⟩
      · rw [toOption_member_setMember_ne hw hne]
      · rw [hv, member_setMember_self hw]
        exact ih hb hp

theorem get_set_apart {p q : Path} {v x y w : Value} (h : v.set x p = .ok w) (ha : p.Apart q)
    (hy : v.get q = .ok y) : w.get q = .ok y :=
  toOption_eq_some.1 ((toOption_get_set_apart h ha).trans (toOption_eq_some.2 hy))

theorem exists_set {p : Path} {v y : Value} (h : v.get p = .ok y) (x : Value) :
    ∃ w, v.set x p = .ok w := by
  induction p generalizing v with
  | nil => exact ⟨x, rfl⟩
  | cons s p ih =>
    obtain ⟨a, ha, h⟩ := get_cons.1 h
    obtain ⟨z, hz⟩ := ih h
    obtain ⟨w, hw⟩ := exists_setMember ha z
    exact ⟨w, set_cons.2 ⟨a, z, ha, hz, hw⟩⟩

end Value

end Parley
