import Parley.Proofs.Casts
import Parley.Proofs.InPlace

/-!
# Cells of a type

A cell is of a type in a store if what it stands for is a value of the type; a record with reference
semantics has to be a shared one. Paths lead into the cell as they lead into its type.

* `Ty.HasCell` : the cells of a type; `Ty.hasCell_record` : the records among them.
* `Store.InBounds` : a path with positions that the arrays have which it meets.
* `Ty.HasCell.get`, `Ty.HasCell.exists_get_iff` : the part at a path is of the type at the path, and
  it is there if the type is and the path is in bounds.
* `Ty.HasCell.acyclic`, `Ty.hasCell_iff` : typed cells hold no record inside itself, and their trees
  are the values of the type.
-/

namespace Parley

mutual

/-- The cells of a type in a store: scalars of the type, arrays of its items, records of its kind
with its fields and no others. -/
def Ty.HasCell (s : Store) : Ty → Cell → Prop
  | .scalar t, .scalar v => v.type = t
  | .array element, .array items => ∀ c ∈ items, element.HasCell s c
  | .record kind _ table, c =>
    match s.fields? c with
    | some fields => c.kind = kind ∧ Table.Sorted fields ∧
      (∀ n ∈ Table.keys fields, n ∈ Table.keys table) ∧ Ty.HasCells s table fields
    | none => False
  | _, _ => False
termination_by structural t => t

/-- Each field of a table is there with its type. -/
def Ty.HasCells (s : Store) : List (String × Ty) → List (String × Cell) → Prop
  | [], _ => True
  | (n, t) :: table, fields =>
    (match Table.find? n fields with
      | some c => t.HasCell s c
      | none => False) ∧ Ty.HasCells s table fields
termination_by structural table => table

end

mutual

instance Ty.decidableHasCell (s : Store) : ∀ (t : Ty) (c : Cell), Decidable (t.HasCell s c)
  | .scalar t, .scalar v => inferInstanceAs (Decidable (v.type = t))
  | .array element, .array items =>
    have := Ty.decidableHasCell s element
    inferInstanceAs (Decidable (∀ c ∈ items, element.HasCell s c))
  | .record _ _ table, .record fields =>
    have := Ty.decidableHasCells s table fields
    inferInstanceAs (Decidable (_ ∧ _ ∧ _ ∧ _))
  | .record _ _ table, .shared id =>
    have := Ty.decidableHasCells s table (s.fields id)
    inferInstanceAs (Decidable (_ ∧ _ ∧ _ ∧ _))
  | .scalar _, .array _ | .scalar _, .record _ | .scalar _, .shared _ =>
    inferInstanceAs (Decidable False)
  | .array _, .scalar _ | .array _, .record _ | .array _, .shared _ =>
    inferInstanceAs (Decidable False)
  | .record _ _ _, .scalar _ | .record _ _ _, .array _ => inferInstanceAs (Decidable False)

instance Ty.decidableHasCells (s : Store) :
    ∀ table fields, Decidable (Ty.HasCells s table fields)
  | [], _ => inferInstanceAs (Decidable True)
  | (n, t) :: table, fields =>
    have := Ty.decidableHasCells s table fields
    have : Decidable (match Table.find? n fields with
        | some c => t.HasCell s c
        | none => False) :=
      match Table.find? n fields with
      | some c => Ty.decidableHasCell s t c
      | none => inferInstanceAs (Decidable False)
    inferInstanceAs (Decidable (_ ∧ _))

end

namespace Ty

variable {s : Store} {t u element : Ty} {c d : Cell} {kind : RecordKind} {name : String}
  {table : List (String × Ty)} {fields : List (String × Cell)} {p : Path} {step : Step}

/-! ## Shapes of typed cells -/

theorem hasCell_scalar {st : ScalarTy} :
    (scalar st).HasCell s c ↔ ∃ v : Scalar, c = .scalar v ∧ v.type = st := by
  cases c <;> simp [HasCell]

theorem hasCell_array :
    (array element).HasCell s c ↔ ∃ items, c = .array items ∧ ∀ d ∈ items, element.HasCell s d := by
  cases c <;> simp [HasCell]

theorem hasCells_iff : HasCells s table fields ↔
    ∀ f ∈ table, ∃ c, Table.find? f.1 fields = some c ∧ f.2.HasCell s c := by
  induction table with
  | nil => exact iff_of_true trivial fun _ hf => absurd hf List.not_mem_nil
  | cons f table ih =>
    obtain ⟨n, t⟩ := f
    rw [HasCells, ih, List.forall_mem_cons]
    refine and_congr_left' ?_
    cases Table.find? n fields <;> simp

theorem hasCell_record : (record kind name table).HasCell s c ↔
    c.kind = kind ∧ ∃ fields, s.fields? c = some fields ∧ Table.Sorted fields ∧
      (∀ n ∈ Table.keys fields, n ∈ Table.keys table) ∧
      ∀ f ∈ table, ∃ d, Table.find? f.1 fields = some d ∧ f.2.HasCell s d := by
  rw [HasCell]
  cases s.fields? c with
  | none => exact iff_of_false id fun ⟨_, _, h, _⟩ => nomatch h
  | some fields =>
    simp only [hasCells_iff]
    constructor
    · rintro ⟨hkind, h⟩
      exact ⟨hkind, fields, rfl, h⟩
    · rintro ⟨hkind, _, ⟨⟩, h⟩
      exact ⟨hkind, h⟩

/-! ## Steps -/

theorem sizeOf_lt_of_step (h : t.step step = .ok u) : sizeOf u < sizeOf t := by
  cases step with
  | index i =>
    obtain rfl := step_index_eq_ok.1 h
    simp only [Ty.array.sizeOf_spec]
    omega
  | name n =>
    obtain ⟨kind, name, table, rfl, hn⟩ := step_name_eq_ok.1 h
    exact sizeOf_lt_of_mem (Table.mem_of_find? hn)

theorem sizeOf_lt_of_follow (h : t.follow p = .ok u) (hp : p ≠ []) : sizeOf u < sizeOf t := by
  induction p generalizing t with
  | nil => exact absurd rfl hp
  | cons step p ih =>
    obtain ⟨t', hs, h⟩ := follow_cons.1 h
    have hstep := sizeOf_lt_of_step hs
    cases p with
    | nil =>
      cases h
      exact hstep
    | cons step' p => exact Nat.lt_trans (ih h (List.cons_ne_nil _ _)) hstep

theorem HasCell.member (h : t.HasCell s c) (hd : s.member c step = .ok d) :
    ∃ u, t.step step = .ok u ∧ u.HasCell s d := by
  cases step with
  | index i =>
    obtain ⟨items, k, rfl, -, hk⟩ := Store.member_index_eq_ok.1 hd
    cases t with
    | scalar st => cases h
    | record kind name table => cases h
    | array element => exact ⟨element, rfl, h d (List.mem_of_getElem? hk)⟩
  | name n =>
    obtain ⟨fields, hf, hn⟩ := Store.member_name_eq_ok.1 hd
    cases t with
    | scalar st => rcases Store.eq_of_fields? hf with rfl | ⟨_, rfl, -⟩ <;> cases h
    | array element => rcases Store.eq_of_fields? hf with rfl | ⟨_, rfl, -⟩ <;> cases h
    | record kind name table =>
      obtain ⟨-, _, hf', -, hkeys, hfields⟩ := hasCell_record.1 h
      cases hf.symm.trans hf'
      obtain ⟨u, hu⟩ := Table.exists_find?_of_mem_keys (hkeys n (Table.mem_keys_of_find? hn))
      obtain ⟨e, he, hcell⟩ := hfields _ (Table.mem_of_find? hu)
      cases hn.symm.trans he
      exact ⟨u, step_name_eq_ok.2 ⟨kind, name, table, rfl, hu⟩, hcell⟩

/-- A part that the type has is there, if it is no position outside of an array. -/
theorem HasCell.exists_member (h : t.HasCell s c) (hs : t.step step = .ok u)
    (hin : ∀ i items, step = .index i → c = .array items → 0 ≤ i ∧ i < items.length) :
    ∃ d, s.member c step = .ok d := by
  cases step with
  | index i =>
    obtain rfl := step_index_eq_ok.1 hs
    obtain ⟨items, rfl, -⟩ := hasCell_array.1 h
    obtain ⟨hi, hlt⟩ := hin i items rfl rfl
    obtain ⟨k, rfl⟩ := Int.eq_ofNat_of_zero_le hi
    exact ⟨_, Store.member_index_eq_ok.2
      ⟨items, k, rfl, rfl, List.getElem?_eq_getElem (Int.ofNat_lt.1 hlt)⟩⟩
  | name n =>
    obtain ⟨kind, name, table, rfl, hn⟩ := step_name_eq_ok.1 hs
    obtain ⟨-, fields, hf, -, -, hfields⟩ := hasCell_record.1 h
    obtain ⟨d, hd, -⟩ := hfields _ (Table.mem_of_find? hn)
    exact ⟨d, Store.member_name_eq_ok.2 ⟨fields, hf, hd⟩⟩

end Ty

/-! ## Paths -/

/-- Every position of the path is one that the array has which the path meets there. -/
def Store.InBounds (s : Store) (c : Cell) (p : Path) : Prop :=
  ∀ (q r : Path) (i : Int) (items : List Cell), p = q ++ .index i :: r →
    s.get c q = .ok (.array items) → 0 ≤ i ∧ i < items.length

theorem Store.InBounds.tail {s : Store} {c d : Cell} {step : Step} {p : Path}
    (h : s.InBounds c (step :: p)) (hd : s.member c step = .ok d) : s.InBounds d p :=
  fun q r i items hp hq =>
    h (step :: q) r i items (congrArg _ hp) (get_cons_eq_ok.2 ⟨d, hd, hq⟩)

theorem Store.inBounds_of_get {s : Store} {c d : Cell} {p : Path} (h : s.get c p = .ok d) :
    s.InBounds c p := by
  rintro q r i items rfl hq
  obtain ⟨_, hq', h⟩ := get_append_eq_ok.1 h
  cases hq.symm.trans hq'
  obtain ⟨e, he, -⟩ := get_cons_eq_ok.1 h
  obtain ⟨_, k, ⟨⟩, rfl, hk⟩ := member_index_eq_ok.1 he
  exact ⟨Int.natCast_nonneg k, Int.ofNat_lt.2 (List.getElem?_eq_some_iff.1 hk).1⟩

namespace Ty

variable {s : Store} {t u : Ty} {c d : Cell} {p : Path}

theorem HasCell.get (h : t.HasCell s c) (hd : s.get c p = .ok d) :
    ∃ u, t.follow p = .ok u ∧ u.HasCell s d := by
  induction p generalizing t c with
  | nil =>
    cases hd
    exact ⟨t, rfl, h⟩
  | cons step p ih =>
    obtain ⟨e, he, hd⟩ := Store.get_cons_eq_ok.1 hd
    obtain ⟨t', hs, he⟩ := h.member he
    obtain ⟨u, hu, hcell⟩ := ih he hd
    exact ⟨u, follow_cons.2 ⟨t', hs, hu⟩, hcell⟩

theorem HasCell.exists_get (h : t.HasCell s c) (hp : t.follow p = .ok u)
    (hin : s.InBounds c p) : ∃ d, s.get c p = .ok d := by
  induction p generalizing t c with
  | nil => exact ⟨c, rfl⟩
  | cons step p ih =>
    obtain ⟨t', hs, hp⟩ := follow_cons.1 hp
    obtain ⟨e, he⟩ := h.exists_member hs fun i items hi hc =>
      hin [] p i items (by rw [hi, List.nil_append]) (congrArg Except.ok hc)
    obtain ⟨_, hs', hcell⟩ := h.member he
    cases hs.symm.trans hs'
    obtain ⟨d, hd⟩ := ih hcell hp (hin.tail he)
    exact ⟨d, Store.get_cons_eq_ok.2 ⟨e, he, hd⟩⟩

/-- There is a part at a path when there is a type and the path is in bounds. -/
theorem HasCell.exists_get_iff (h : t.HasCell s c) :
    (∃ d, s.get c p = .ok d) ↔ (∃ u, t.follow p = .ok u) ∧ s.InBounds c p := by
  constructor
  · rintro ⟨d, hd⟩
    obtain ⟨u, hu, -⟩ := h.get hd
    exact ⟨⟨u, hu⟩, Store.inBounds_of_get hd⟩
  · rintro ⟨⟨u, hu⟩, hin⟩
    exact h.exists_get hu hin

/-! ## Trees -/

/-- No path leads from a typed cell to the cell itself, since types have no parts that are not
smaller. -/
theorem HasCell.eq_nil_of_get_self {t : Ty} (h : t.HasCell s c) (hc : s.get c p = .ok c) :
    p = [] := by
  by_contra hp
  obtain ⟨u, hu, hcell⟩ := h.get hc
  have := sizeOf_lt_of_follow hu hp
  exact hp (HasCell.eq_nil_of_get_self hcell hc)
termination_by sizeOf t

theorem HasCell.acyclic (h : t.HasCell s c) : s.Acyclic c := by
  rintro id p ⟨q, hq⟩ hp
  obtain ⟨u, -, hcell⟩ := h.get hq
  exact hcell.eq_nil_of_get_self hp

theorem hasFields_iff {table : List (String × Ty)} {fields : Fields} : HasFields table fields ↔
    ∀ f ∈ table, ∃ v, Table.find? f.1 fields = some v ∧ f.2.Has v := by
  induction table with
  | nil => exact iff_of_true trivial fun _ hf => absurd hf List.not_mem_nil
  | cons f table ih => rw [hasFields_cons, ih, List.forall_mem_cons]

theorem has_fieldTrees {kind kind' : RecordKind} {name : String} {table : List (String × Ty)}
    {look : Nat → Value} {fields : List (String × Cell)} :
    (record kind name table).Has (.record kind' (Store.fieldTrees look fields)) ↔
      kind' = kind ∧ Table.Sorted fields ∧
        (∀ n ∈ Table.keys fields, n ∈ Table.keys table) ∧
        ∀ f ∈ table, ∃ d, Table.find? f.1 fields = some d ∧ f.2.Has (Store.tree look d) := by
  have hkeys : Table.keys (Store.fieldTrees look fields) = Table.keys fields := by
    rw [Store.fieldTrees_eq, Table.keys, List.map_map]
    rfl
  rw [Has, Table.Sorted, hkeys, ← Table.Sorted, hasFields_iff]
  refine and_congr_right fun _ => and_congr_right fun _ => and_congr_right fun _ =>
    forall₂_congr fun f _ => ?_
  rw [Store.fieldTrees_eq, Table.find?_map_snd]
  cases Table.find? f.1 fields <;> simp

/-- A record is of a type just when its tree is, if the same is true of its fields. -/
theorem hasCell_record_iff_has {kind : RecordKind} {name : String} {table : List (String × Ty)}
    {fields : List (String × Cell)} {look : Nat → Value} (hf : s.fields? c = some fields)
    (hparts : ∀ f ∈ table, ∀ d, Table.find? f.1 fields = some d →
      (f.2.HasCell s d ↔ f.2.Has (Store.tree look d))) :
    (record kind name table).HasCell s c ↔
      (record kind name table).Has (.record c.kind (Store.fieldTrees look fields)) := by
  rw [hasCell_record, has_fieldTrees]
  simp only [hf, Option.some.injEq, exists_eq_left']
  refine and_congr_right fun _ => and_congr_right fun _ => and_congr_right fun _ =>
    forall₂_congr fun f hmem => exists_congr fun d => and_congr_right fun hd => hparts f hmem d hd

theorem hasCell_iff_tree {ids : List Nat} {m : Nat} (ha : s.Acyclic c) (ho : s.Outside ids c)
    (hm : s.records.length ≤ ids.length + m) :
    t.HasCell s c ↔ t.Has (Store.tree (s.recordTree m) c) := by
  induction t using Ty.parts generalizing c ids m with
  | scalar st =>
    cases c with
    | scalar v => exact Iff.rfl
    | array items | record fields => exact Iff.rfl
    | shared id =>
      obtain ⟨ws, hws⟩ := s.exists_recordTree m id
      rw [Store.tree, hws]
      exact Iff.rfl
  | array element ih =>
    cases c with
    | scalar v | record fields => exact Iff.rfl
    | shared id =>
      obtain ⟨ws, hws⟩ := s.exists_recordTree m id
      rw [Store.tree, hws]
      exact Iff.rfl
    | array items =>
      rw [Store.tree_array, HasCell, Has, List.forall_mem_map]
      refine forall₂_congr fun d hd => ?_
      obtain ⟨k, hk⟩ := Store.member_of_mem (s := s) hd
      exact ih (ha.get ((s.get_singleton _ _).trans hk)) (ho.member hk) hm
  | record kind name table ih =>
    cases c with
    | scalar v | array items => exact Iff.rfl
    | record fields =>
      refine hasCell_record_iff_has rfl fun f hf d hd => ?_
      have hmem : s.member (.record fields) (.name f.1) = .ok d :=
        Store.member_name_eq_ok.2 ⟨fields, rfl, hd⟩
      exact ih f hf (ha.get ((s.get_singleton _ _).trans hmem)) (ho.member hmem) hm
    | shared id =>
      have hself : s.get (.shared id) [] = .ok (.shared id) := rfl
      rw [Store.tree]
      cases hfields : s.fields id with
      | nil =>
        rw [Store.recordTree_of_fields_eq_nil hfields]
        have hf : s.fields? (.shared id) = some [] := congrArg some hfields
        show _ ↔ (record kind name table).Has
          (.record (Cell.kind (.shared id)) (Store.fieldTrees (s.recordTree m) []))
        refine hasCell_record_iff_has hf fun f _ d hd => ?_
        cases hd
      | cons e rest =>
        -- the record is outside of its fields, so there is depth left for them
        have he : s.member (.shared id) (.name e.1) = .ok e.2 :=
          Store.member_shared (by rw [hfields, Table.find?, if_pos rfl])
        have hlen := (ho.enter ha hself he).length_le
        rw [List.length_cons] at hlen
        obtain ⟨k, rfl⟩ : ∃ k, m = k + 1 := ⟨m - 1, by omega⟩
        rw [Store.recordTree]
        refine hasCell_record_iff_has rfl fun f hf d hd => ?_
        have hmem := Store.member_shared hd
        exact ih f hf (ha.get ((s.get_singleton _ _).trans hmem)) (ho.enter ha hself hmem)
          (by rw [List.length_cons]; omega)

/-- A cell is of a type when no record in it holds itself and its tree is a value of the type. -/
theorem hasCell_iff : t.HasCell s c ↔ s.Acyclic c ∧ t.Has (s.snapshot c) := by
  have htree (ha : s.Acyclic c) : t.HasCell s c ↔ t.Has (s.snapshot c) :=
    hasCell_iff_tree ha (.nil s c) (Nat.le_add_left _ _)
  exact ⟨fun h => ⟨h.acyclic, (htree h.acyclic).1 h⟩, fun ⟨ha, h⟩ => (htree ha).2 h⟩

end Ty

end Parley
