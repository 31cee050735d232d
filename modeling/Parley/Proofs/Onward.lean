import Parley.Proofs.CastingCells

/-!
# What cells led to before

Casting changes records in place, makes new ones and copies others. It never makes a path: where a
path leads to a record afterwards that was there before, it led to this record before.

* `Store.Leads` : a cell at a later moment leads to no more than another one did before.
* `Leads.later` : records may get fields that lead to no more than they did themselves.
* `Store.Onward` : from one store to a later one, every cell leads to no more than it did.
* `onward_of_append`, `Onward.write` : new records, and a record with new fields.
* `loadsNew_default` : a default is loaded as new records only.
-/

namespace Parley.Store

variable {s t u : Store} {c d e : Cell} {step : Step} {p q : Path} {id : Nat} {n : String}
  {fields : List (String × Cell)} {ws : Fields}

/-- The records that the cell `d` leads to in the store `t` are there, and of those that were there
in `s` the cell `c` led to the same ones, by the path `p` and on from there. -/
def Leads (s : Store) (c : Cell) (p : Path) (t : Store) (d : Cell) : Prop :=
  ∀ q id, t.get d q = .ok (.shared id) → id < t.records.length ∧
    (id < s.records.length → s.get c (p ++ q) = .ok (.shared id))

theorem Stored.member (h : s.Stored c) (hd : s.member c step = .ok d) : s.Stored d :=
  fun id hr => h id (hr.of_member hd)

theorem Stored.item {items : List Cell} (h : s.Stored (.array items)) (hc : c ∈ items) :
    s.Stored c := by
  obtain ⟨k, hk⟩ := member_of_mem hc
  exact h.member hk

theorem Stored.field (h : s.Stored c) (hf : s.fields? c = some fields)
    (hn : Table.find? n fields = some d) : s.Stored d :=
  h.member (member_name_eq_ok.2 ⟨fields, hf, hn⟩)

namespace Leads

theorem refl (h : s.Stored c) : s.Leads c [] s c :=
  fun q id hq => ⟨h id ⟨q, hq⟩, fun _ => hq⟩

theorem stored (h : s.Leads c p t d) : t.Stored d :=
  fun id ⟨q, hq⟩ => (h q id hq).1

theorem trans (h : s.Leads c p t d) (h' : t.Leads d q u e)
    (hlen : s.records.length ≤ t.records.length) : s.Leads c (p ++ q) u e := by
  intro q' id hq'
  obtain ⟨hlt, hback⟩ := h' q' id hq'
  refine ⟨hlt, fun hid => ?_⟩
  rw [List.append_assoc]
  exact (h _ id (hback (Nat.lt_of_lt_of_le hid hlen))).2 hid

theorem member (h : s.Leads c p t d) (he : t.member d step = .ok e) :
    s.Leads c (p ++ [step]) t e := by
  intro q id hq
  rw [List.append_assoc]
  exact h (step :: q) id (get_cons_eq_ok.2 ⟨e, he, hq⟩)

theorem of_member (hd : s.member c step = .ok d) (h : s.Leads d p t e) :
    s.Leads c (step :: p) t e :=
  fun q id hq => ⟨(h q id hq).1, fun hid => get_cons_eq_ok.2 ⟨d, hd, (h q id hq).2 hid⟩⟩

/-- A cell leads where its parts do, and to itself if it is a record. -/
theorem of_parts (hself : ∀ id, d = .shared id →
      id < t.records.length ∧ (id < s.records.length → s.get c p = .ok (.shared id)))
    (hparts : ∀ step e, t.member d step = .ok e → s.Leads c (p ++ [step]) t e) :
    s.Leads c p t d := by
  intro q id hq
  cases q with
  | nil =>
    rw [List.append_nil]
    exact hself id (Except.ok.inj hq)
  | cons step q =>
    obtain ⟨e, he, hq⟩ := get_cons_eq_ok.1 hq
    have hpart := hparts step e he q id hq
    rwa [List.append_assoc] at hpart

theorem scalar (v : Scalar) : s.Leads c p t (.scalar v) := by
  refine of_parts (fun id hid => Cell.noConfusion hid) fun step e he => ?_
  cases step <;> cases he

theorem array {items : List Cell}
    (h : ∀ (k : Nat) e, items[k]? = some e → s.Leads c (p ++ [.index k]) t e) :
    s.Leads c p t (.array items) := by
  refine of_parts (fun id hid => Cell.noConfusion hid) fun step e he => ?_
  cases step with
  | name n => cases he
  | index i =>
    obtain ⟨_, k, ⟨⟩, rfl, hk⟩ := member_index_eq_ok.1 he
    exact h k e hk

/-- Records stay what they were, or get fields that lead to no more than they did themselves. -/
theorem later (h : s.Leads c p t d) (hlen : t.records.length ≤ u.records.length)
    (hfields : ∀ id < t.records.length, u.fields id = t.fields id ∨ id < s.records.length ∧
      ∀ n e, Table.find? n (u.fields id) = some e → s.Leads (.shared id) [.name n] t e) :
    s.Leads c p u d := by
  intro q
  induction q generalizing c p d with
  | nil =>
    intro id hid
    obtain ⟨hlt, hback⟩ := h [] id hid
    exact ⟨Nat.lt_of_lt_of_le hlt hlen, hback⟩
  | cons step q ih =>
    intro j hj
    obtain ⟨e, he, hrest⟩ := get_cons_eq_ok.1 hj
    by_cases hsame : u.fields? d = t.fields? d
    · have he' : t.member d step = .ok e :=
        toOption_eq_some.1 ((toOption_member_congr hsame step).symm.trans (toOption_eq_some.2 he))
      have hpart := ih (h.member he') j hrest
      rwa [List.append_assoc] at hpart
    · -- the path enters a record that got other fields, so what follows was a path from it
      cases d with
      | scalar v => exact absurd rfl hsame
      | array items => exact absurd rfl hsame
      | record fields => exact absurd rfl hsame
      | shared id =>
        obtain ⟨hid, hback⟩ := h [] id rfl
        rcases hfields id hid with hsame' | ⟨hlt, hnew⟩
        · exact absurd (congrArg some hsame') hsame
        · cases step with
          | index i => cases he
          | name n =>
            obtain ⟨_, ⟨⟩, hn⟩ := member_name_eq_ok.1 he
            obtain ⟨hjt, hjs⟩ := ih (hnew n e hn) j hrest
            refine ⟨hjt, fun hlt' => get_append_eq_ok.2 ⟨.shared id, ?_, hjs hlt'⟩⟩
            exact List.append_nil p ▸ hback hlt

end Leads

/-! ## Later stores -/

/-- The second store is a later one: there are more records, and every cell leads to no more than it
did. -/
structure Onward (s t : Store) : Prop where
  length_le : s.records.length ≤ t.records.length
  leads : ∀ c, s.Stored c → s.Leads c [] t c

theorem Onward.refl (s : Store) : s.Onward s :=
  ⟨Nat.le_refl _, fun _ h => .refl h⟩

theorem Onward.trans (h : s.Onward t) (h' : t.Onward u) : s.Onward u where
  length_le := Nat.le_trans h.length_le h'.length_le
  leads c hc := (h.leads c hc).trans (h'.leads c (h.leads c hc).stored) h.length_le

theorem Onward.stored (h : s.Onward t) (hc : s.Stored c) : t.Stored c :=
  (h.leads c hc).stored

theorem Leads.onward (h : s.Leads c p t d) (hlen : s.records.length ≤ t.records.length)
    (ho : t.Onward u) : s.Leads c p u d :=
  List.append_nil p ▸ h.trans (ho.leads d h.stored) hlen

theorem Leads.append (h : s.Leads c p t d) (ha : t.records <+: u.records) : s.Leads c p u d :=
  h.later ha.length_le fun _ hid => Or.inl (fields_of_append ha hid)

theorem onward_of_append (h : s.records <+: t.records) : s.Onward t :=
  ⟨h.length_le, fun _ hc => (Leads.refl hc).append h⟩

/-- A record gets fields that lead to no more than it did. -/
theorem Leads.write (h : s.Leads c p t d) (hid : id < s.records.length)
    (hlen : s.records.length ≤ t.records.length)
    (hfields : ∀ n e, Table.find? n fields = some e → s.Leads (.shared id) [.name n] t e) :
    s.Leads c p (t.write id fields) d := by
  refine h.later (Nat.le_of_eq (length_write t id fields).symm) fun j _ => ?_
  by_cases hj : j = id
  · subst hj
    rw [fields_write_self (Nat.lt_of_lt_of_le hid hlen)]
    exact Or.inr ⟨hid, hfields⟩
  · exact Or.inl (fields_write_ne hj)

theorem Onward.write (h : s.Onward t) (hid : id < s.records.length)
    (hfields : ∀ n e, Table.find? n fields = some e → s.Leads (.shared id) [.name n] t e) :
    s.Onward (t.write id fields) where
  length_le := length_write t id fields ▸ h.length_le
  leads c hc := (h.leads c hc).write hid h.length_le hfields

theorem Leads.of_fields (hf : t.fields? d = some fields)
    (hself : ∀ id, d = .shared id →
      id < t.records.length ∧ (id < s.records.length → s.get c p = .ok (.shared id)))
    (h : ∀ n e, Table.find? n fields = some e → s.Leads c (p ++ [.name n]) t e) :
    s.Leads c p t d := by
  refine .of_parts hself fun step e he => ?_
  cases step with
  | index i =>
    obtain ⟨_, _, rfl, -⟩ := member_index_eq_ok.1 he
    cases hf
  | name n =>
    obtain ⟨_, hf', hn⟩ := member_name_eq_ok.1 he
    cases hf.symm.trans hf'
    exact h n e hn

theorem Leads.of_record (hf : s.fields? c = some fields)
    (h : s.Leads (.record fields) (.name n :: p) t e) : s.Leads c (.name n :: p) t e := by
  intro q id hq
  refine ⟨(h q id hq).1, fun hid => ?_⟩
  obtain ⟨d, hd, hrest⟩ := get_cons_eq_ok.1 ((h q id hq).2 hid)
  obtain ⟨_, ⟨⟩, hn⟩ := member_name_eq_ok.1 hd
  exact get_cons_eq_ok.2 ⟨d, member_name_eq_ok.2 ⟨fields, hf, hn⟩, hrest⟩

theorem Leads.record (h : ∀ n e, Table.find? n fields = some e → s.Leads c (p ++ [.name n]) t e) :
    s.Leads c p t (.record fields) :=
  .of_fields rfl (fun _ hid => Cell.noConfusion hid) h

theorem Leads.allocate (hlen : s.records.length ≤ t.records.length)
    (h : ∀ n e, Table.find? n fields = some e → s.Leads c (p ++ [.name n]) t e) :
    s.Leads c p (t.allocate fields).2 (t.allocate fields).1 := by
  refine .of_fields (congrArg some (fields_allocate_self t fields)) ?_ fun n e hn =>
    (h n e hn).append (append_allocate t fields)
  rintro id ⟨⟩
  refine ⟨?_, fun hid => absurd hid (Nat.not_lt.2 hlen)⟩
  rw [Store.allocate, List.length_append]
  exact Nat.lt_succ_self _

/-! ## Defaults -/

/-- A cell that leads to no more than a scalar leads to new records only, and so to no more than any
cell did. -/
theorem Leads.of_scalar {v : Scalar} (h : t.Leads (.scalar v) q u d)
    (hlen : s.records.length ≤ t.records.length) : s.Leads c p u d := by
  intro q' id hq'
  obtain ⟨hlt, hback⟩ := h q' id hq'
  refine ⟨hlt, fun hid => ?_⟩
  have hnone := hback (Nat.lt_of_lt_of_le hid hlen)
  cases hpath : q ++ q' with
  | nil => rw [hpath] at hnone; cases hnone
  | cons step r => rw [hpath] at hnone; cases step <;> cases hnone

/-- The value is loaded as new records only. -/
def LoadsNew (v : Value) : Prop :=
  ∀ s c t, (load v).run s = (c, t) → s.records <+: t.records ∧ s.Leads (.scalar .nil) [] t c

theorem loadsNew_fields (h : ∀ e ∈ ws, LoadsNew e.2) (hl : (loadFields ws).run s = (fields, t)) :
    s.records <+: t.records ∧ ∀ e ∈ fields, s.Leads (.scalar .nil) [] t e.2 := by
  induction ws generalizing s fields with
  | nil =>
    cases hl
    exact ⟨List.prefix_rfl, fun e he => absurd he List.not_mem_nil⟩
  | cons w ws ih =>
    obtain ⟨hw, h⟩ := List.forall_mem_cons.1 h
    rw [loadFields, StateT.run_bind] at hl
    rcases hc : (load w.2).run s with ⟨c, s₁⟩
    rcases hrest : (loadFields ws).run s₁ with ⟨rest, s₂⟩
    rw [hc] at hl
    change StateT.run (loadFields ws >>= fun rest => pure ((w.1, c) :: rest)) s₁ = _ at hl
    rw [StateT.run_bind, hrest] at hl
    cases hl
    obtain ⟨happend, hnew⟩ := hw s c s₁ hc
    obtain ⟨happend', hnew'⟩ := ih h hrest
    exact ⟨happend.trans happend', List.forall_mem_cons.2
      ⟨hnew.append happend', fun e he => (hnew' e he).of_scalar happend.length_le⟩⟩

theorem loadsNew_record (kind : RecordKind) (h : ∀ e ∈ ws, LoadsNew e.2) :
    LoadsNew (.record kind ws) := by
  intro s c t hl
  rcases hrun : (loadFields ws).run s with ⟨fields, s₁⟩
  obtain ⟨happend, hnew⟩ := loadsNew_fields h hrun
  have hfields (n : String) (e : Cell) (hn : Table.find? n fields = some e) :
      s.Leads (.scalar .nil) ([] ++ [.name n]) s₁ e :=
    (hnew (n, e) (Table.mem_of_find? hn)).of_scalar (Nat.le_refl _)
  rw [load.eq_def] at hl
  cases kind with
  | value =>
    simp only [StateT.run_bind, hrun] at hl
    cases hl
    exact ⟨happend, .record hfields⟩
  | reference =>
    simp only [StateT.run_bind, hrun] at hl
    cases hl
    exact ⟨happend.trans (append_allocate s₁ fields), .allocate happend.length_le hfields⟩

theorem loadsNew_default (type : Ty) : LoadsNew type.default := by
  induction type using Ty.parts with
  | scalar st =>
    intro s c t hl
    cases hl
    exact ⟨List.prefix_rfl, .scalar _⟩
  | array element ih =>
    intro s c t hl
    cases hl
    exact ⟨List.prefix_rfl, .array fun k e hk => by cases hk⟩
  | record kind name table ih =>
    refine loadsNew_record kind fun e he => ?_
    obtain ⟨f, hf, rfl⟩ := Ty.mem_defaults (Table.mem_of_mem_ofList he)
    exact ih f hf

end Parley.Store
