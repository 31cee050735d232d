import Parley.Proofs.RoundTrip

/-!
# Encodings that carry all of a type

* `Ty.Covered` : every leaf and every array of a type has an entry that carries it.
* `eq_of_agree` : values that agree on all that such an encoding carries are equal.
* `run_decode` : reading a value from its bytes yields the very value.
-/

namespace Parley

mutual

/-- Below the path, every leaf has an entry, unless it says nothing, and every array has one whose
own entries carry all of an item. -/
def Ty.Covered : Ty → Path → List Encoding → Prop
  | .scalar s, path, encoding => s = .nil ∨ ∃ e ∈ encoding, e.path = path
  | .array u, path, encoding => ∃ e ∈ encoding,
    match e with
    | .array p element => p = path ∧ u.Covered [] element
    | _ => False
  | .record _ _ table, path, encoding => Ty.CoveredFields table path encoding
termination_by structural t => t

/-- Every field of a table is covered, below the path of its record. -/
def Ty.CoveredFields : List (String × Ty) → Path → List Encoding → Prop
  | [], _, _ => True
  | (n, t) :: table, path, encoding =>
    t.Covered (path ++ [.name n]) encoding ∧ Ty.CoveredFields table path encoding
termination_by structural table => table

end

mutual

instance Ty.decidableCovered : ∀ (t : Ty) (path : Path) (encoding : List Encoding),
    Decidable (t.Covered path encoding)
  | .scalar s, path, encoding =>
    inferInstanceAs (Decidable (s = .nil ∨ ∃ e ∈ encoding, e.path = path))
  | .array u, path, encoding =>
    have : DecidablePred fun e : Encoding =>
        match e with
        | .array p element => p = path ∧ u.Covered [] element
        | _ => False := fun e =>
      match e with
      | .array p element =>
        have := Ty.decidableCovered u [] element
        inferInstanceAs (Decidable (p = path ∧ u.Covered [] element))
      | .base .. => isFalse id
      | .enum .. => isFalse id
    inferInstanceAs (Decidable (∃ e ∈ encoding, _))
  | .record _ _ table, path, encoding => Ty.decidableCoveredFields table path encoding

instance Ty.decidableCoveredFields : ∀ (table : List (String × Ty)) (path : Path)
    (encoding : List Encoding), Decidable (Ty.CoveredFields table path encoding)
  | [], _, _ => isTrue trivial
  | (n, t) :: table, path, encoding =>
    @instDecidableAnd _ _ (Ty.decidableCovered t (path ++ [.name n]) encoding)
      (Ty.decidableCoveredFields table path encoding)

end

theorem Agree.of_mem {encoding : List Encoding} {v w : Value} (h : Agree encoding v w)
    {e : Encoding} (he : e ∈ encoding) : e.Agree v w := by
  induction encoding with
  | nil => cases he
  | cons e' rest ih =>
    rcases List.mem_cons.1 he with rfl | he
    · exact h.1
    · exact ih h.2 he

namespace Ty

theorem eq_of_agree_leaf {e : Encoding} {v w : Value} {s s' : Scalar} (h : e.Agree v w)
    (hv : v.get e.path = .ok (.scalar s)) (hw : w.get e.path = .ok (.scalar s')) : s = s' := by
  cases e with
  | base kind path =>
    obtain ⟨x, hx, hx'⟩ := h
    cases hv.symm.trans hx
    cases hw.symm.trans hx'
    rfl
  | enum path table =>
    obtain ⟨x, hx, hx'⟩ := h
    cases hv.symm.trans hx
    cases hw.symm.trans hx'
    rfl
  | array path element =>
    obtain ⟨xs, ys, hx, -⟩ := h
    cases hv.symm.trans hx

theorem eq_of_forall₂ {R : Value → Value → Prop} {xs ys : List Value} (h : List.Forall₂ R xs ys)
    (hr : ∀ x ∈ xs, ∀ y ∈ ys, R x y → x = y) : xs = ys := by
  induction h with
  | nil => rfl
  | cons hxy _ ih =>
    rw [hr _ List.mem_cons_self _ List.mem_cons_self hxy, ih fun x hx y hy =>
      hr x (List.mem_cons_of_mem _ hx) y (List.mem_cons_of_mem _ hy)]

theorem get_field {v x : Value} {path : Path} {kind : RecordKind} {fields : Fields} {n : String}
    (hv : v.get path = .ok (.record kind fields)) (hn : Table.find? n fields = some x) :
    v.get (path ++ [.name n]) = .ok x :=
  Value.get_append.2 ⟨_, hv, Value.get_cons.2
    ⟨x, Value.member_name_eq_ok.2 ⟨kind, fields, rfl, hn⟩, rfl⟩⟩

mutual

/-- Values that agree on all entries have equal parts at a path below which all is covered. -/
theorem eq_of_agree_at : ∀ {t : Ty} {path : Path} {encoding : List Encoding} {v w x y : Value},
    t.Covered path encoding → Agree encoding v w → v.get path = .ok x → w.get path = .ok y →
      t.Has x → t.Has y → x = y
  | .scalar s, path, encoding, v, w, x, y, hc, ha, hx, hy, htx, hty => by
    obtain ⟨a, rfl, hs⟩ := has_scalar.1 htx
    obtain ⟨b, rfl, hs'⟩ := has_scalar.1 hty
    rcases hc with rfl | ⟨e, he, rfl⟩
    · cases a <;> cases hs
      cases b <;> cases hs'
      rfl
    · rw [eq_of_agree_leaf (ha.of_mem he) hx hy]
  | .array u, path, encoding, v, w, x, y, hc, ha, hx, hy, htx, hty => by
    obtain ⟨e, he, h⟩ := hc
    cases e with
    | base => exact h.elim
    | enum => exact h.elim
    | array p element =>
      obtain ⟨rfl, hu⟩ := h
      obtain ⟨xs, ys, hxs, hys, hitems⟩ := ha.of_mem he
      cases hx.symm.trans hxs
      cases hy.symm.trans hys
      obtain ⟨_, hxe, htxs⟩ := has_array.1 htx
      obtain ⟨_, hye, htys⟩ := has_array.1 hty
      cases hxe
      cases hye
      rw [eq_of_forall₂ hitems fun a ha b hb hab =>
        eq_of_agree_at hu hab rfl rfl (htxs a ha) (htys b hb)]
  | .record kind name table, path, encoding, v, w, x, y, hc, ha, hx, hy, htx, hty => by
    obtain ⟨fields, rfl, hs, hk, hh⟩ := has_record.1 htx
    obtain ⟨fields', rfl, hs', hk', hh'⟩ := has_record.1 hty
    have hfields : fields = fields' := by
      refine hs.ext hs' fun n => ?_
      by_cases hn : n ∈ Table.keys table
      · obtain ⟨t, ht⟩ := Table.exists_find?_of_mem_keys hn
        obtain ⟨a, hfa, hta⟩ := hh.of_find? ht
        obtain ⟨b, hfb, htb⟩ := hh'.of_find? ht
        rw [hfa, hfb, eq_of_agree_field hc ha ht (get_field hx hfa) (get_field hy hfb) hta htb]
      · rw [Table.find?_eq_none_iff.2 (mt (hk n) hn), Table.find?_eq_none_iff.2 (mt (hk' n) hn)]
    rw [hfields]

theorem eq_of_agree_field : ∀ {table : List (String × Ty)} {path : Path}
    {encoding : List Encoding} {v w x y : Value} {n : String} {t : Ty},
    CoveredFields table path encoding → Agree encoding v w → Table.find? n table = some t →
      v.get (path ++ [.name n]) = .ok x → w.get (path ++ [.name n]) = .ok y →
        t.Has x → t.Has y → x = y
  | [], _, _, _, _, _, _, _, _, _, _, hn, _, _, _, _ => nomatch hn
  | (m, u) :: table, _, _, _, _, _, _, n, t, hc, ha, hn, hx, hy, htx, hty => by
    rw [Table.find?] at hn
    by_cases hm : m = n
    · rw [if_pos hm] at hn
      cases hn
      subst hm
      exact eq_of_agree_at hc.1 ha hx hy htx hty
    · rw [if_neg hm] at hn
      exact eq_of_agree_field hc.2 ha hn hx hy htx hty

end

end Ty

/-- Values of a type that agree on all that an encoding carries are equal if that is all there
is. -/
theorem eq_of_agree {encoding : List Encoding} {t : Ty} {v w : Value} (hc : t.Covered [] encoding)
    (ha : Agree encoding v w) (hv : t.Has v) (hw : t.Has w) : v = w :=
  Ty.eq_of_agree_at hc ha rfl rfl hv hw

theorem run_decode {encoding : List Encoding} {t : Ty} {v : Value} {b : List UInt8}
    (hd : t.Distinct) (hf : Fits encoding t) (hc : t.Covered [] encoding) (hv : t.Has v)
    (hk : Keyed encoding v) (hb : encode encoding v = .ofBytes b) (o : Nat) (rest : List UInt8) :
    (decode encoding t).run ⟨o, b ++ rest⟩ = (.ok v, ⟨o + b.length, rest⟩) := by
  obtain ⟨w, hw, htw, ha⟩ := exists_decode hd hf hv hk hb o rest
  rw [hw, eq_of_agree hc ha hv htw]

end Parley
