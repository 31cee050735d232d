import Mathlib.Data.List.Perm.Subperm
import Parley.Proofs.Outcome
import Parley.Proofs.Paths
import Parley.Proofs.Tables
import Parley.Store.Access

/-!
# Cells in a store

What a cell stands for depends on the shared records that paths from it lead to, and on no others.

* `Store.Reaches` : a path from a cell leads to a shared record.
* `Store.Unshared`, `Store.Acyclic`, `Store.Keyed` : no record is reached by two paths, none holds
  itself, and none has two fields of one name.
* `Store.get_write` : a write to a record is not seen on paths that do not go through it.
* `Store.tree_eq_of_outside` : how deep a tree has to be followed; the records that a cell does not
  reach need not be counted.
* `Store.snapshot_write` : a write leaves the cells alone that do not reach the record.
-/

namespace Parley

/-- Induction on what a cell holds itself; shared records are not entered. -/
@[elab_as_elim]
theorem Cell.parts {P : Cell → Prop} (scalar : ∀ s, P (.scalar s))
    (array : ∀ items, (∀ c ∈ items, P c) → P (.array items))
    (record : ∀ fields, (∀ e ∈ fields, P e.2) → P (.record fields))
    (shared : ∀ id, P (.shared id)) : ∀ c, P c
  | .scalar s => scalar s
  | .array items => array items fun c _ => Cell.parts scalar array record shared c
  | .record fields => record fields fun e _ => Cell.parts scalar array record shared e.2
  | .shared id => shared id
termination_by c => sizeOf c
decreasing_by
  · have := List.sizeOf_lt_of_mem ‹c ∈ items›
    simp only [Cell.array.sizeOf_spec]
    omega
  · obtain ⟨n, c⟩ := e
    have := List.sizeOf_lt_of_mem ‹(n, c) ∈ fields›
    simp only [Cell.record.sizeOf_spec, Prod.mk.sizeOf_spec] at this ⊢
    omega

namespace Store

variable {s t : Store} {c d x : Cell} {step : Step} {p q : Path} {id : Nat}
  {fields : List (String × Cell)}

/-! ## Parts -/

theorem member_index_eq_ok {i : Int} :
    s.member c (.index i) = .ok d ↔
      ∃ items k, c = .array items ∧ i = (k : Nat) ∧ items[k]? = some d := by
  constructor
  · intro h
    cases c with
    | scalar v => cases h
    | record fields => cases h
    | shared id => cases h
    | array items =>
      obtain ⟨k, hk, h⟩ := bind_eq_ok.1 h
      cases hd : items[k]? with
      | none => rw [hd] at h; cases h
      | some e =>
        rw [hd] at h
        cases h
        exact ⟨items, k, rfl, position_eq_ok.1 hk, hd⟩
  · rintro ⟨items, k, rfl, hi, hd⟩
    refine bind_eq_ok.2 ⟨k, position_eq_ok.2 hi, ?_⟩
    rw [hd]
    rfl

theorem eq_of_fields? (h : s.fields? c = some fields) :
    c = .record fields ∨ ∃ id, c = .shared id ∧ s.fields id = fields := by
  cases c with
  | scalar v => cases h
  | array items => cases h
  | record fields => exact Or.inl (congrArg _ (Option.some.inj h))
  | shared id => exact Or.inr ⟨id, rfl, Option.some.inj h⟩

theorem member_name (s : Store) (c : Cell) (n : String) :
    s.member c (.name n) =
      match s.fields? c with
      | none => .error (s.wrongContainer c (.name n))
      | some fields =>
        match Table.find? n fields with
        | some d => .ok d
        | none => .error (.noField n) := by
  cases c <;> rfl

theorem member_name_eq_ok {n : String} :
    s.member c (.name n) = .ok d ↔
      ∃ fields, s.fields? c = some fields ∧ Table.find? n fields = some d := by
  rw [member_name]
  constructor
  · intro h
    cases hf : s.fields? c with
    | none => rw [hf] at h; cases h
    | some fields =>
      cases hd : Table.find? n fields with
      | none => simp only [hf, hd] at h; cases h
      | some e =>
        simp only [hf, hd] at h
        cases h
        exact ⟨fields, rfl, hd⟩
  · rintro ⟨fields, hf, hd⟩
    simp only [hf, hd]

theorem get_cons_eq_ok : s.get c (step :: p) = .ok d ↔
    ∃ e, s.member c step = .ok e ∧ s.get e p = .ok d :=
  bind_eq_ok

theorem get_singleton (s : Store) (c : Cell) (step : Step) : s.get c [step] = s.member c step :=
  bind_pure (s.member c step)

theorem get_append (s : Store) (c : Cell) (p q : Path) :
    s.get c (p ++ q) = s.get c p >>= fun d => s.get d q := by
  induction p generalizing c with
  | nil => rfl
  | cons step p ih =>
    show s.member c step >>= (fun d => s.get d (p ++ q)) = _
    rw [get, bind_assoc]
    exact bind_congr fun d => ih d

theorem get_append_eq_ok : s.get c (p ++ q) = .ok d ↔
    ∃ e, s.get c p = .ok e ∧ s.get e q = .ok d := by
  rw [get_append, bind_eq_ok]

theorem toOption_get_cons (s : Store) (c : Cell) (step : Step) (p : Path) :
    (s.get c (step :: p)).toOption =
      (s.member c step).toOption.bind fun d => (s.get d p).toOption :=
  toOption_bind _ _

theorem toOption_member_index (s : Store) (items : List Cell) (i : Int) :
    (s.member (.array items) (.index i)).toOption = (position i).toOption.bind (items[·]?) := by
  rw [member, toOption_bind]
  congr 1
  funext k
  cases items[k]? <;> rfl

theorem toOption_member_name (s : Store) (c : Cell) (n : String) :
    (s.member c (.name n)).toOption = (s.fields? c).bind (Table.find? n) := by
  rw [member_name]
  cases s.fields? c with
  | none => rfl
  | some fields =>
    rw [Option.bind_some]
    cases hn : Table.find? n fields <;> simp only [hn] <;> rfl

theorem toOption_member_congr (h : s.fields? c = t.fields? c) (step : Step) :
    (s.member c step).toOption = (t.member c step).toOption := by
  cases step with
  | name n => rw [toOption_member_name, toOption_member_name, h]
  | index i =>
    cases c with
    | array items => rfl
    | scalar v => rfl
    | record fields => rfl
    | shared id => rfl

/-! ## Shared records on the way -/

/-- A path from the cell leads to the record. -/
def Reaches (s : Store) (c : Cell) (id : Nat) : Prop :=
  ∃ p, s.get c p = .ok (.shared id)

/-- No shared record is reached by two paths. -/
def Unshared (s : Store) (c : Cell) : Prop :=
  ∀ p q id, s.get c p = .ok (.shared id) → s.get c q = .ok (.shared id) → p = q

/-- No shared record that is reached holds itself. -/
def Acyclic (s : Store) (c : Cell) : Prop :=
  ∀ id p, s.Reaches c id → s.get (.shared id) p = .ok (.shared id) → p = []

/-- No record that is reached has two fields of one name; tables in key order never do. -/
def Keyed (s : Store) (c : Cell) : Prop :=
  ∀ p d fields, s.get c p = .ok d → s.fields? d = some fields → (Table.keys fields).Nodup

/-- The cells have no shared record in common. -/
def Disjoint (s : Store) (c d : Cell) : Prop :=
  ∀ id, s.Reaches c id → ¬ s.Reaches d id

theorem Reaches.of_get (hd : s.get c p = .ok d) (h : s.Reaches d id) : s.Reaches c id := by
  obtain ⟨q, hq⟩ := h
  exact ⟨p ++ q, get_append_eq_ok.2 ⟨d, hd, hq⟩⟩

theorem Reaches.of_member (hd : s.member c step = .ok d) (h : s.Reaches d id) : s.Reaches c id :=
  h.of_get (p := [step]) (get_cons_eq_ok.2 ⟨d, hd, rfl⟩)

theorem Unshared.get (h : s.Unshared c) (hd : s.get c p = .ok d) : s.Unshared d :=
  fun q r id hq hr => List.append_cancel_left
    (h (p ++ q) (p ++ r) id (get_append_eq_ok.2 ⟨d, hd, hq⟩) (get_append_eq_ok.2 ⟨d, hd, hr⟩))

theorem Unshared.acyclic (h : s.Unshared c) : s.Acyclic c := by
  rintro id q ⟨p, hp⟩ hq
  have := h p (p ++ q) id hp (get_append_eq_ok.2 ⟨_, hp, hq⟩)
  exact List.append_right_eq_self.1 this.symm

theorem Acyclic.get (h : s.Acyclic c) (hd : s.get c p = .ok d) : s.Acyclic d :=
  fun id q hr hq => h id q (hr.of_get hd) hq

theorem Acyclic.not_reaches_part (h : s.Acyclic c) (hc : s.get c p = .ok (.shared id))
    (hd : s.member (.shared id) step = .ok d) : ¬ s.Reaches d id := by
  rintro ⟨q, hq⟩
  exact List.cons_ne_nil _ _ (h id (step :: q) ⟨p, hc⟩ (get_cons_eq_ok.2 ⟨d, hd, hq⟩))

theorem Keyed.get (h : s.Keyed c) (hd : s.get c p = .ok d) : s.Keyed d :=
  fun q e fields he hf => h (p ++ q) e fields (get_append_eq_ok.2 ⟨d, hd, he⟩) hf

theorem Keyed.member (h : s.Keyed c) (hd : s.member c step = .ok d) : s.Keyed d :=
  h.get (p := [step]) (get_cons_eq_ok.2 ⟨d, hd, rfl⟩)

theorem Keyed.nodup (h : s.Keyed c) (hf : s.fields? c = some fields) : (Table.keys fields).Nodup :=
  h [] c fields rfl hf

theorem Keyed.member_of_mem (h : s.Keyed c) (hf : s.fields? c = some fields) {e : String × Cell}
    (he : e ∈ fields) : s.member c (.name e.1) = .ok e.2 :=
  member_name_eq_ok.2 ⟨fields, hf, Table.find?_of_mem (h.nodup hf) he⟩

theorem member_of_mem {items : List Cell} (hd : d ∈ items) :
    ∃ k : Nat, s.member (.array items) (.index k) = .ok d := by
  obtain ⟨k, hk⟩ := List.mem_iff_getElem?.1 hd
  exact ⟨k, member_index_eq_ok.2 ⟨items, k, rfl, rfl, hk⟩⟩

theorem lt_of_member (h : s.member (.shared id) step = .ok d) : id < s.records.length := by
  by_contra hle
  have hnone : s.fields id = [] := by
    rw [Store.fields, List.getElem?_eq_none (Nat.le_of_not_lt hle), Option.getD_none]
  cases step with
  | index i => cases h
  | name n =>
    obtain ⟨fields, hf, hn⟩ := member_name_eq_ok.1 h
    cases hf
    rw [hnone] at hn
    cases hn

/-! ## Writing a record -/

theorem fields_write_self (hid : id < s.records.length) :
    (s.write id fields).fields id = fields := by
  rw [Store.fields, write, List.getElem?_set_self hid, Option.getD_some]

theorem fields_write_ne {j : Nat} (hne : j ≠ id) : (s.write id fields).fields j = s.fields j := by
  rw [Store.fields, write, List.getElem?_set_ne hne.symm, Store.fields]

theorem length_write (s : Store) (id : Nat) (fields : List (String × Cell)) :
    (s.write id fields).records.length = s.records.length :=
  List.length_set

theorem write_fields (s : Store) (id : Nat) : s.write id (s.fields id) = s := by
  rw [write, Store.fields]
  congr 1
  refine List.ext_getElem? fun j => ?_
  rw [List.getElem?_set]
  by_cases hj : id = j
  · subst hj
    by_cases hlt : id < s.records.length
    · rw [if_pos rfl, if_pos hlt, List.getElem?_eq_getElem hlt, Option.getD_some]
    · rw [if_pos rfl, if_neg hlt, List.getElem?_eq_none (Nat.le_of_not_lt hlt)]
  · rw [if_neg hj]

theorem fields?_write (hne : c ≠ .shared id) : (s.write id fields).fields? c = s.fields? c := by
  cases c with
  | shared j => exact congrArg some (fields_write_ne fun h => hne (h ▸ rfl))
  | scalar v => rfl
  | array items => rfl
  | record fields => rfl

theorem write_write (s : Store) (id : Nat) (fields fields' : List (String × Cell)) :
    (s.write id fields).write id fields' = s.write id fields' :=
  congrArg Store.mk (List.set_set ..)

/-- A write to a record is not seen on a path that does not go through it. -/
theorem get_write (fields : List (String × Cell))
    (h : ∀ q r, p = q ++ r → r ≠ [] → s.get c q ≠ .ok (.shared id)) :
    ((s.write id fields).get c p).toOption = (s.get c p).toOption := by
  induction p generalizing c with
  | nil => rfl
  | cons step p ih =>
    have hne : c ≠ .shared id := fun hc =>
      h [] (step :: p) rfl (List.cons_ne_nil _ _) (congrArg Except.ok hc)
    rw [toOption_get_cons, toOption_get_cons, toOption_member_congr (fields?_write hne)]
    cases hm : s.member c step with
    | error e => rfl
    | ok d =>
      exact ih fun q r hp hr hq =>
        h (step :: q) r (congrArg _ hp) hr (get_cons_eq_ok.2 ⟨d, hm, hq⟩)

theorem get_write_of_not_reaches (fields : List (String × Cell)) (h : ¬ s.Reaches c id) (p : Path) :
    ((s.write id fields).get c p).toOption = (s.get c p).toOption :=
  get_write fields fun q _ _ _ hq => h ⟨q, hq⟩

/-! ## Trees -/

theorem trees_eq (look : Nat → Value) (items : List Cell) :
    trees look items = items.map (tree look) := by
  induction items with
  | nil => rfl
  | cons c items ih => rw [trees, ih, List.map_cons]

theorem fieldTrees_eq (look : Nat → Value) (fields : List (String × Cell)) :
    fieldTrees look fields = fields.map fun e => (e.1, tree look e.2) := by
  induction fields with
  | nil => rfl
  | cons e fields ih => rw [fieldTrees, ih, List.map_cons]

theorem tree_array (look : Nat → Value) (items : List Cell) :
    tree look (.array items) = .array (items.map (tree look)) := by
  rw [tree, trees_eq]

theorem fieldTrees_congr {f g : Nat → Value} (h : ∀ e ∈ fields, tree f e.2 = tree g e.2) :
    fieldTrees f fields = fieldTrees g fields := by
  rw [fieldTrees_eq, fieldTrees_eq]
  exact List.map_congr_left fun e he => congrArg _ (h e he)

theorem tree_congr {f g : Nat → Value} (hk : s.Keyed c) (h : ∀ id, s.Reaches c id → f id = g id) :
    tree f c = tree g c := by
  induction c using Cell.parts with
  | scalar v => rfl
  | shared id => exact h id ⟨[], rfl⟩
  | array items ih =>
    rw [tree_array, tree_array]
    refine congrArg _ (List.map_congr_left fun c hc => ?_)
    obtain ⟨k, hm⟩ := member_of_mem (s := s) hc
    exact ih c hc (hk.member hm) fun id hr => h id (hr.of_member hm)
  | record fields ih =>
    rw [tree, tree]
    refine congrArg _ (fieldTrees_congr fun e he => ?_)
    have hm := hk.member_of_mem rfl he
    exact ih e he (hk.member hm) fun id hr => h id (hr.of_member hm)

/-- The records are in the store and the cell does not reach them. -/
structure Outside (s : Store) (ids : List Nat) (c : Cell) : Prop where
  nodup : ids.Nodup
  lt : ∀ id ∈ ids, id < s.records.length
  not_reaches : ∀ id ∈ ids, ¬ s.Reaches c id

namespace Outside

variable {ids : List Nat}

theorem nil (s : Store) (c : Cell) : s.Outside [] c :=
  ⟨List.nodup_nil, fun _ h => (nomatch h), fun _ h => (nomatch h)⟩

theorem length_le (h : s.Outside ids c) : ids.length ≤ s.records.length := by
  have hsub : ids ⊆ List.range s.records.length := fun id hid => List.mem_range.2 (h.lt id hid)
  have := (List.Nodup.subperm h.nodup hsub).length_le
  rwa [List.length_range] at this

theorem get (h : s.Outside ids c) (hd : s.get c p = .ok d) : s.Outside ids d :=
  ⟨h.nodup, h.lt, fun id hid hr => h.not_reaches id hid (hr.of_get hd)⟩

theorem member (h : s.Outside ids c) (hd : s.member c step = .ok d) : s.Outside ids d :=
  ⟨h.nodup, h.lt, fun id hid hr => h.not_reaches id hid (hr.of_member hd)⟩

theorem cons (h : s.Outside ids c) (hlt : id < s.records.length) (hmem : id ∉ ids)
    (hc : ¬ s.Reaches c id) : s.Outside (id :: ids) c where
  nodup := List.nodup_cons.2 ⟨hmem, h.nodup⟩
  lt := List.forall_mem_cons.2 ⟨hlt, h.lt⟩
  not_reaches := List.forall_mem_cons.2 ⟨hc, h.not_reaches⟩

theorem not_mem (h : s.Outside ids c) (hc : s.get c p = .ok (.shared id)) : id ∉ ids :=
  fun hmem => h.not_reaches id hmem ⟨p, hc⟩

/-- A record is outside of its own parts. -/
theorem enter (h : s.Outside ids c) (ha : s.Acyclic c) (hc : s.get c p = .ok (.shared id))
    (hd : s.member (.shared id) step = .ok d) : s.Outside (id :: ids) d :=
  ((h.get hc).member hd).cons (lt_of_member hd) (h.not_mem hc) (ha.not_reaches_part hc hd)

end Outside

theorem exists_recordTree (s : Store) (n id : Nat) :
    ∃ ws, s.recordTree n id = .record .reference ws := by
  cases n <;> exact ⟨_, rfl⟩

theorem recordTree_of_fields_eq_nil (h : s.fields id = []) (n : Nat) :
    s.recordTree n id = .record .reference [] := by
  cases n with
  | zero => rfl
  | succ n => rw [recordTree, h, fieldTrees]

/-- Two depths give one tree if both count all records but some that the cell does not reach. -/
theorem tree_eq_of_outside {c : Cell} {ids : List Nat} {m n : Nat} (hk : s.Keyed c)
    (ha : s.Acyclic c) (ho : s.Outside ids c) (hm : s.records.length ≤ ids.length + m)
    (hn : s.records.length ≤ ids.length + n) :
    tree (s.recordTree m) c = tree (s.recordTree n) c := by
  refine tree_congr hk fun id ⟨p, hp⟩ => ?_
  have hpart {e : String × Cell} (he : e ∈ s.fields id) :
      s.Keyed e.2 ∧ s.Acyclic e.2 ∧ s.Outside (id :: ids) e.2 := by
    have hd := (hk.get hp).member_of_mem rfl he
    have hget : s.get c (p ++ [.name e.1]) = .ok e.2 :=
      get_append_eq_ok.2 ⟨_, hp, get_cons_eq_ok.2 ⟨_, hd, rfl⟩⟩
    exact ⟨hk.get hget, ha.get hget, ho.enter ha hp hd⟩
  by_cases hf : s.fields id = []
  · rw [recordTree_of_fields_eq_nil hf, recordTree_of_fields_eq_nil hf]
  · -- one more record is outside of its fields, so there is one left to count
    obtain ⟨e, he⟩ := List.exists_mem_of_ne_nil _ hf
    have := (hpart he).2.2.length_le
    rw [List.length_cons] at this
    obtain ⟨m, rfl⟩ : ∃ k, m = k + 1 := ⟨m - 1, by omega⟩
    obtain ⟨n, rfl⟩ : ∃ k, n = k + 1 := ⟨n - 1, by omega⟩
    rw [recordTree, recordTree]
    refine congrArg _ (fieldTrees_congr fun e he => ?_)
    obtain ⟨hk, ha, ho⟩ := hpart he
    exact tree_eq_of_outside hk ha ho (by rw [List.length_cons]; omega)
      (by rw [List.length_cons]; omega)
termination_by m

/-- A write leaves the trees of the cells alone that do not reach the record. -/
theorem tree_write (fields : List (String × Cell)) (hk : s.Keyed c) (h : ¬ s.Reaches c id)
    (n : Nat) : tree ((s.write id fields).recordTree n) c = tree (s.recordTree n) c := by
  induction n generalizing c with
  | zero => rfl
  | succ n ih =>
    refine tree_congr hk fun j hj => ?_
    have hne : j ≠ id := fun he => h (he ▸ hj)
    rw [recordTree, recordTree, fields_write_ne hne]
    refine congrArg _ (fieldTrees_congr fun e he => ?_)
    obtain ⟨p, hp⟩ := hj
    have hd := (hk.get hp).member_of_mem rfl he
    exact ih ((hk.get hp).member hd) fun hr => h ((hr.of_member hd).of_get hp)

theorem snapshot_write (fields : List (String × Cell)) (hk : s.Keyed c) (h : ¬ s.Reaches c id) :
    (s.write id fields).snapshot c = s.snapshot c := by
  rw [snapshot, snapshot, length_write, tree_write fields hk h]

end Store

end Parley
