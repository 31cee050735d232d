import Parley.Proofs.Typing
import Parley.Sketch

/-!
# Construction makes room for every path

* `Sketch.Of` : the sketches of a type; `Of.add` : merging a path of the type goes through, keeps
  the sketch one of the type and covers the path.
* `Of.build` : the value of a sketch has the type and every covered path.
* `exists_construct`, `exists_constructItems` : what is allocated before a value is read.
-/

namespace Parley

/-! ## Tables of computations -/

theorem exists_mapM_snd {ε κ α β : Type} [DecidableEq κ] {f : α → Except ε β}
    {P : α → β → Prop} {table : List (κ × α)} (hn : (Table.keys table).Nodup)
    (h : ∀ k a, Table.find? k table = some a → ∃ b, f a = .ok b ∧ P a b) :
    ∃ done, table.mapM (fun e => do return (e.1, ← f e.2)) = .ok done ∧
      Table.keys done = Table.keys table ∧
      ∀ k a, Table.find? k table = some a → ∃ b, Table.find? k done = some b ∧ P a b := by
  induction table with
  | nil => exact ⟨[], rfl, rfl, fun _ _ h => nomatch h⟩
  | cons entry rest ih =>
    obtain ⟨i, a⟩ := entry
    rw [Table.keys, List.map_cons, List.nodup_cons] at hn
    obtain ⟨b, hb, hp⟩ := h i a (by rw [Table.find?, if_pos rfl])
    have hrest : ∀ k a, Table.find? k rest = some a → ∃ b, f a = .ok b ∧ P a b := by
      intro k c hk
      have hik : i ≠ k := fun he => hn.1 (he ▸ Table.mem_keys_of_find? hk)
      exact h k c (by rw [Table.find?, if_neg hik, hk])
    obtain ⟨done, hd, hk, hf⟩ := ih hn.2 hrest
    refine ⟨(i, b) :: done, ?_, ?_, ?_⟩
    · exact mapM_cons_eq_ok.2 ⟨(i, b), done, bind_eq_ok.2 ⟨b, hb, rfl⟩, hd, rfl⟩
    · simp only [Table.keys, List.map_cons] at hk ⊢
      rw [hk]
    · intro k c hc
      rw [Table.find?] at hc ⊢
      by_cases hi : i = k
      · rw [if_pos hi] at hc ⊢
        cases hc
        exact ⟨b, rfl, hp⟩
      · rw [if_neg hi] at hc ⊢
        exact hf k c hc

namespace Sketch

/-! ## Sketches of a type -/

/-- The sketches of a type. -/
inductive Of : Ty → Sketch → Prop
  | leaf (t : Ty) : Of t (.leaf t)
  | array (u : Ty) (size : Nat) (elements : List (Nat × Sketch)) (ho : Table.Sorted elements)
      (hi : ∀ i s, Table.find? i elements = some s → i < size)
      (hs : ∀ i s, Table.find? i elements = some s → Of u s) :
      Of (.array u) (.array (.array u) size elements)
  | record (kind : RecordKind) (name : String) (table : List (String × Ty))
      (fields : List (String × Sketch)) (ho : Table.Sorted fields)
      (ht : ∀ n s, Table.find? n fields = some s → Table.find? n table = some s.type)
      (hs : ∀ n s, Table.find? n fields = some s → Of s.type s) :
      Of (.record kind name table) (.record (.record kind name table) fields)

/-- The path leads through places of the sketch. -/
def Covers : Path → Sketch → Prop
  | [], _ => True
  | .index i :: p, s => ∃ (k : Nat) (c : Sketch), i = k ∧ s.element? k = some c ∧ Covers p c
  | .name n :: p, s => ∃ c, s.field? n = some c ∧ Covers p c

theorem Of.type_eq {t : Ty} {s : Sketch} (h : Of t s) : s.type = t := by
  cases h <;> rfl

/-- The place that is entered, whether an earlier path entered it or not. -/
theorem of_getD {u : Ty} {place : Option Sketch} (h : ∀ c, place = some c → Of u c) :
    Of u (place.getD (leaf u)) := by
  cases place with
  | none => exact .leaf u
  | some c => exact h c rfl

/-- A sketch of an array type: its elements, and what merging a path into one of them does. -/
theorem Of.elements {u : Ty} {s : Sketch} (h : Of (.array u) s) :
    ∃ size elements, Table.Sorted elements ∧
      (∀ i c, Table.find? i elements = some c → i < size) ∧
      (∀ i c, Table.find? i elements = some c → Of u c) ∧
      (∀ i, s.element? i = Table.find? i elements) ∧ (∀ n, s.field? n = none) ∧
      ∀ full (k : Nat) rest, add full (.index k :: rest) s = (do
        let child ← add full rest ((Table.find? k elements).getD (Sketch.leaf u))
        return Sketch.array (.array u) (max size (k + 1)) (Table.insert k child elements)) := by
  have hk (k : Nat) : position k = .ok k := position_eq_ok.2 rfl
  cases h with
  | leaf =>
    refine ⟨0, [], Table.sorted_nil, fun _ _ h => (nomatch h), fun _ _ h => (nomatch h),
      fun _ => rfl, fun _ => rfl, ?_⟩
    intro full k rest
    simp only [add, hk]
    rfl
  | array _ size elements ho hi hs =>
    refine ⟨size, elements, ho, hi, hs, fun _ => rfl, fun _ => rfl, ?_⟩
    intro full k rest
    simp only [add, hk]
    rfl

/-- A sketch of a record type: its fields, and what merging a path into one of them does. -/
theorem Of.fields {kind : RecordKind} {name : String} {table : List (String × Ty)} {s : Sketch}
    (h : Of (.record kind name table) s) :
    ∃ fields, Table.Sorted fields ∧
      (∀ n c, Table.find? n fields = some c → Table.find? n table = some c.type) ∧
      (∀ n c, Table.find? n fields = some c → Of c.type c) ∧
      (∀ n, s.field? n = Table.find? n fields) ∧ (∀ i, s.element? i = none) ∧
      ∀ full n rest u, Table.find? n table = some u → add full (.name n :: rest) s = (do
        let child ← add full rest ((Table.find? n fields).getD (Sketch.leaf u))
        return Sketch.record (.record kind name table) (Table.insert n child fields)) := by
  have hfield {n : String} {u : Ty} (hn : Table.find? n table = some u) (full : Path) :
      blame full ((Ty.record kind name table).field n) = .ok u := by
    rw [show (Ty.record kind name table).field n = .ok u from
      Ty.step_name_eq_ok.2 ⟨kind, name, table, rfl, hn⟩]
    rfl
  cases h with
  | leaf =>
    refine ⟨[], Table.sorted_nil, fun _ _ h => (nomatch h), fun _ _ h => (nomatch h),
      fun _ => rfl, fun _ => rfl, ?_⟩
    intro full n rest u hn
    simp only [add, type, hfield hn]
    rfl
  | record _ _ _ fields ho ht hs =>
    refine ⟨fields, ho, ht, hs, fun _ => rfl, fun _ => rfl, ?_⟩
    intro full n rest u hn
    simp only [add, type, hfield hn]
    rfl

/-- Merging the path into a sketch of the type goes through; the sketch stays one of the type,
covers the path and still covers what it covered. -/
def Merges (full p : Path) (t : Ty) : Prop :=
  ∀ s, Of t s → ∃ s', add full p s = .ok s' ∧ Of t s' ∧ s'.Covers p ∧
    ∀ q, s.Covers q → s'.Covers q

theorem merges_nil (full : Path) (t : Ty) : Merges full [] t :=
  fun s h => ⟨s, by cases s <;> rfl, h, trivial, fun _ hq => hq⟩

theorem merges_index {full p : Path} {u : Ty} (k : Nat) (ih : Merges full p u) :
    Merges full (.index k :: p) (.array u) := by
  intro s h
  obtain ⟨size, elements, ho, hi, he, hget, hnone, hadd⟩ := h.elements
  obtain ⟨child, hc, hof, hcov, hkeep⟩ := ih _ (of_getD (he k))
  have hsame : Table.find? k (Table.insert k child elements) = some child :=
    Table.find?_insert_self k child elements
  have hsize : ∀ j c, Table.find? j (Table.insert k child elements) = some c →
      j < max size (k + 1) :=
    Table.forall_insert (by omega) fun j c _ hj =>
      Nat.lt_of_lt_of_le (hi j c hj) (Nat.le_max_left _ _)
  refine ⟨array (.array u) (max size (k + 1)) (Table.insert k child elements),
    (hadd full k p).trans (bind_eq_ok.2 ⟨child, hc, rfl⟩),
    .array u _ _ (ho.insert k child) hsize (Table.forall_insert hof fun j c _ => he j c),
    ⟨k, child, rfl, hsame, hcov⟩, ?_⟩
  intro q hq
  match q, hq with
  | [], _ => exact trivial
  | .name n :: q, ⟨c, hn, _⟩ => rw [hnone n] at hn; cases hn
  | .index j :: q, ⟨m, c, hj, hm, hq⟩ =>
    rw [hget] at hm
    by_cases hkm : k = m
    · subst hkm
      refine ⟨k, child, hj, hsame, hkeep q ?_⟩
      rw [hm]
      exact hq
    · exact ⟨m, c, hj, (Table.find?_insert_ne hkm child elements).trans hm, hq⟩

theorem merges_name {full p : Path} {kind : RecordKind} {name n : String}
    {table : List (String × Ty)} {u : Ty} (hn : Table.find? n table = some u)
    (ih : Merges full p u) : Merges full (.name n :: p) (.record kind name table) := by
  intro s h
  obtain ⟨fields, ho, ht, he, hget, hnone, hadd⟩ := h.fields
  have hold {c : Sketch} (hk : Table.find? n fields = some c) : Of u c := by
    obtain rfl : u = c.type := Option.some.inj (hn.symm.trans (ht n c hk))
    exact he n c hk
  obtain ⟨child, hc, hof, hcov, hkeep⟩ := ih _ (of_getD fun _ => hold)
  obtain rfl := hof.type_eq
  have hsame : Table.find? n (Table.insert n child fields) = some child :=
    Table.find?_insert_self n child fields
  refine ⟨record (.record kind name table) (Table.insert n child fields),
    (hadd full n p _ hn).trans (bind_eq_ok.2 ⟨child, hc, rfl⟩),
    .record kind name table _ (ho.insert n child) (Table.forall_insert hn fun m c _ => ht m c)
      (Table.forall_insert hof fun m c _ => he m c),
    ⟨child, hsame, hcov⟩, ?_⟩
  intro q hq
  match q, hq with
  | [], _ => exact trivial
  | .index i :: q, ⟨k, c, _, hk, _⟩ => rw [hnone k] at hk; cases hk
  | .name m :: q, ⟨c, hm, hq⟩ =>
    rw [hget] at hm
    by_cases hnm : n = m
    · subst hnm
      refine ⟨child, hsame, hkeep q ?_⟩
      rw [hm]
      exact hq
    · exact ⟨c, (Table.find?_insert_ne hnm child fields).trans hm, hq⟩

theorem merges_of_follow (full : Path) {p : Path} {t u : Ty} (hp : p.Plain)
    (hf : t.follow p = .ok u) : Merges full p t := by
  induction p generalizing t with
  | nil => exact merges_nil full t
  | cons step p ih =>
    obtain ⟨t', hs, hrest⟩ := Ty.follow_cons.1 hf
    cases step with
    | index i =>
      obtain ⟨k, rfl⟩ := Int.eq_ofNat_of_zero_le (hp _ List.mem_cons_self)
      obtain rfl := Ty.step_index_eq_ok.1 hs
      exact merges_index k (ih hp.tail hrest)
    | name n =>
      obtain ⟨kind, name, table, rfl, hn⟩ := Ty.step_name_eq_ok.1 hs
      exact merges_name hn (ih hp.tail hrest)

/-! ## The value of a sketch -/

theorem buildElements_eq (elements : List (Nat × Sketch)) :
    buildElements elements = elements.mapM (fun e => do return (e.1, ← e.2.build)) := by
  induction elements with
  | nil => rfl
  | cons e rest ih =>
    rw [buildElements, List.mapM_cons, ih]
    cases e.2.build <;> rfl

theorem buildFields_eq (fields : List (String × Sketch)) :
    buildFields fields = fields.mapM (fun e => do return (e.1, ← e.2.build)) := by
  induction fields with
  | nil => rfl
  | cons e rest ih =>
    rw [buildFields, List.mapM_cons, ih]
    cases e.2.build <;> rfl

/-- Putting fields of a record in their places one after the other. -/
theorem exists_setFields {kind : RecordKind} {name : String} {table : List (String × Ty)}
    {given : Fields} {v : Value} (hd : (Ty.record kind name table).Distinct)
    (hv : (Ty.record kind name table).Has v) (hn : (Table.keys given).Nodup)
    (h : ∀ n x, Table.find? n given = some x → ∃ u, Table.find? n table = some u ∧ u.Has x) :
    ∃ w, given.foldlM (fun v f => v.setMember (.name f.1) f.2) v = (.ok w : Except Error Value) ∧
      (Ty.record kind name table).Has w ∧
      (∀ n x, Table.find? n given = some x → w.member (.name n) = .ok x) ∧
      ∀ n x, n ∉ Table.keys given → v.member (.name n) = .ok x → w.member (.name n) = .ok x := by
  induction given generalizing v with
  | nil => exact ⟨v, rfl, hv, fun _ _ h => (nomatch h), fun _ _ _ hx => hx⟩
  | cons entry rest ih =>
    obtain ⟨m, y⟩ := entry
    rw [Table.keys, List.map_cons, List.nodup_cons] at hn
    obtain ⟨u, hu, hy⟩ := h m y (by rw [Table.find?, if_pos rfl])
    have hstep : (Ty.record kind name table).step (.name m) = .ok u :=
      Ty.step_name_eq_ok.2 ⟨kind, name, table, rfl, hu⟩
    obtain ⟨v', hv'⟩ : ∃ v', v.setMember (.name m) y = .ok v' := by
      obtain ⟨fields, rfl, -, -, hf⟩ := Ty.has_record.1 hv
      obtain ⟨x, hx, -⟩ := hf.of_find? hu
      exact Value.exists_setMember (Value.member_name_eq_ok.2 ⟨kind, fields, rfl, hx⟩) y
    have hrest : ∀ n x, Table.find? n rest = some x →
        ∃ u, Table.find? n table = some u ∧ u.Has x := by
      intro n x hx
      have hmn : m ≠ n := fun he => hn.1 (he ▸ Table.mem_keys_of_find? hx)
      exact h n x (by rw [Table.find?, if_neg hmn, hx])
    obtain ⟨w, hw, ht, hg, hk⟩ := ih (hv.setStep hd hstep hy hv') hn.2 hrest
    refine ⟨w, ?_, ht, ?_, ?_⟩
    · rw [List.foldlM_cons]
      exact bind_eq_ok.2 ⟨v', hv', hw⟩
    · intro n x hx
      rw [Table.find?] at hx
      by_cases hmn : m = n
      · subst hmn
        rw [if_pos rfl] at hx
        cases hx
        exact hk m y hn.1 (Value.member_setMember_self hv')
      · rw [if_neg hmn] at hx
        exact hg n x hx
    · intro n x hx hold
      rw [Table.keys, List.map_cons, List.mem_cons, not_or] at hx
      have hne : Step.name m ≠ .name n := fun he => hx.1 (Step.name.inj he).symm
      exact hk n x hx.2 (Value.member_setMember_ne hv' hne hold)

/-- The sketch is built to a value of the type that has every covered path. -/
def Builds (t : Ty) (s : Sketch) : Prop :=
  ∃ v, s.build = .ok v ∧ t.Has v ∧ ∀ p, s.Covers p → ∃ x, v.get p = .ok x

theorem builds_leaf {t : Ty} (hd : t.Distinct) : Builds t (.leaf t) := by
  refine ⟨t.default, rfl, Ty.has_default hd, ?_⟩
  intro p hp
  match p, hp with
  | [], _ => exact ⟨t.default, rfl⟩
  | .index i :: p, ⟨k, c, _, hk, _⟩ => cases hk
  | .name n :: p, ⟨c, hn, _⟩ => cases hn

theorem builds_array {u : Ty} {size : Nat} {elements : List (Nat × Sketch)}
    (ho : Table.Sorted elements) (hi : ∀ i s, Table.find? i elements = some s → i < size)
    (hs : ∀ i s, Table.find? i elements = some s → Builds u s) (hd : u.Distinct) :
    Builds (.array u) (.array (.array u) size elements) := by
  obtain ⟨given, hg, hk, hf⟩ := exists_mapM_snd ho.nodup hs
  rw [← buildElements_eq] at hg
  refine ⟨.array ((List.range size).map fun i => (Table.find? i given).getD u.default), ?_, ?_, ?_⟩
  · rw [Sketch.build]
    exact bind_eq_ok.2 ⟨u, rfl, bind_eq_ok.2 ⟨given, hg, rfl⟩⟩
  · intro x hx
    obtain ⟨i, -, rfl⟩ := List.mem_map.1 hx
    cases hgi : Table.find? i given with
    | none => exact Ty.has_default hd
    | some y =>
      have hmem : i ∈ Table.keys elements := hk ▸ Table.mem_keys_of_find? hgi
      obtain ⟨s, hsi⟩ := Table.exists_find?_of_mem_keys hmem
      obtain ⟨z, hz, ht, -⟩ := hf i s hsi
      rw [hgi] at hz
      cases hz
      exact ht
  · intro p hp
    match p, hp with
    | [], _ => exact ⟨_, rfl⟩
    | .name n :: p, ⟨c, hn, _⟩ => cases hn
    | .index i :: p, ⟨k, c, hik, hk, hp⟩ =>
      obtain ⟨y, hy, -, hcov⟩ := hf k c hk
      obtain ⟨x, hx⟩ := hcov p hp
      have hlt : k < size := hi k c hk
      refine ⟨x, Value.get_cons.2 ⟨y, Value.member_index_eq_ok.2 ⟨_, k, rfl, hik, ?_⟩, hx⟩⟩
      rw [List.getElem?_map, List.getElem?_range hlt, Option.map_some, hy]
      rfl

theorem builds_record {kind : RecordKind} {name : String} {table : List (String × Ty)}
    {fields : List (String × Sketch)} (ho : Table.Sorted fields)
    (ht : ∀ n s, Table.find? n fields = some s → Table.find? n table = some s.type)
    (hs : ∀ n s, Table.find? n fields = some s → Builds s.type s)
    (hd : (Ty.record kind name table).Distinct) :
    Builds (.record kind name table) (.record (.record kind name table) fields) := by
  obtain ⟨given, hg, hk, hf⟩ := exists_mapM_snd ho.nodup hs
  rw [← buildFields_eq] at hg
  have hgiven : ∀ n x, Table.find? n given = some x →
      ∃ u, Table.find? n table = some u ∧ u.Has x := by
    intro n x hx
    have hmem : n ∈ Table.keys fields := hk ▸ Table.mem_keys_of_find? hx
    obtain ⟨s, hsn⟩ := Table.exists_find?_of_mem_keys hmem
    obtain ⟨z, hz, hty, -⟩ := hf n s hsn
    rw [hx] at hz
    cases hz
    exact ⟨s.type, ht n s hsn, hty⟩
  obtain ⟨w, hw, hty, hset, -⟩ :=
    exists_setFields hd (Ty.has_default hd) (hk ▸ ho.nodup) hgiven
  refine ⟨w, ?_, hty, ?_⟩
  · rw [Sketch.build]
    exact bind_eq_ok.2 ⟨given, hg, hw⟩
  · intro p hp
    match p, hp with
    | [], _ => exact ⟨w, rfl⟩
    | .index i :: p, ⟨k, c, _, hk, _⟩ => cases hk
    | .name n :: p, ⟨c, hn, hp⟩ =>
      obtain ⟨y, hy, -, hcov⟩ := hf n c hn
      obtain ⟨x, hx⟩ := hcov p hp
      exact ⟨x, Value.get_cons.2 ⟨y, hset n y hy, hx⟩⟩

/-- A sketch becomes a value of its type that has every path the sketch covers. -/
theorem Of.build {t : Ty} {s : Sketch} (h : Of t s) (hd : t.Distinct) : Builds t s := by
  induction h with
  | leaf t => exact builds_leaf hd
  | array u size elements ho hi hs ih => exact builds_array ho hi (fun i s hi => ih i s hi hd) hd
  | record kind name table fields ho ht hs ih =>
    refine builds_record ho ht (fun n s hn => ih n s hn ?_) hd
    exact hd.2.of_find? (ht n s hn)

end Sketch

/-! ## Values for an encoding -/

/-- The entry's path leads somewhere in the type, without negative positions. -/
def Encoding.Resolves (t : Ty) (e : Encoding) : Prop :=
  e.path.Plain ∧ ∃ u, t.follow e.path = .ok u

theorem exists_addAll {encoding : List Encoding} {t : Ty} {s : Sketch} (h : Sketch.Of t s)
    (hr : ∀ e ∈ encoding, e.Resolves t) :
    ∃ s', encoding.foldlM (fun s e => Sketch.add e.path e.path s) s = .ok s' ∧
      Sketch.Of t s' ∧ (∀ e ∈ encoding, s'.Covers e.path) ∧ ∀ q, s.Covers q → s'.Covers q := by
  induction encoding generalizing s with
  | nil => exact ⟨s, rfl, h, fun _ he => (nomatch he), fun _ hq => hq⟩
  | cons e rest ih =>
    obtain ⟨hp, u, hu⟩ := hr e List.mem_cons_self
    obtain ⟨s₁, hs₁, h₁, hcov, hkeep₁⟩ := Sketch.merges_of_follow e.path hp hu s h
    obtain ⟨s₂, hs₂, h₂, hall, hkeep₂⟩ := ih h₁ fun e he => hr e (List.mem_cons_of_mem _ he)
    refine ⟨s₂, ?_, h₂, ?_, fun q hq => hkeep₂ q (hkeep₁ q hq)⟩
    · rw [List.foldlM_cons]
      exact bind_eq_ok.2 ⟨s₁, hs₁, hs₂⟩
    · intro e' he'
      rcases List.mem_cons.1 he' with rfl | he'
      · exact hkeep₂ _ hcov
      · exact hall e' he'

/-- Construction goes through for paths of the type and makes a value of the type with a part at
each of them. -/
theorem exists_construct {encoding : List Encoding} {t : Ty} (hd : t.Distinct)
    (hr : ∀ e ∈ encoding, e.Resolves t) :
    ∃ v, construct encoding t = .ok v ∧ t.Has v ∧ ∀ e ∈ encoding, ∃ x, v.get e.path = .ok x := by
  obtain ⟨s, hs, hof, hcov, -⟩ := exists_addAll (.leaf t) hr
  obtain ⟨v, hv, ht, hp⟩ := hof.build hd
  exact ⟨v, bind_eq_ok.2 ⟨s, hs, hv⟩, ht, fun e he => hp _ (hcov e he)⟩

theorem exists_constructItems {element : List Encoding} {u : Ty} (hd : u.Distinct)
    (hr : ∀ e ∈ element, e.Resolves u) (count : Nat) :
    ∃ v, constructItems (.array u) element count = .ok (List.replicate count v) ∧ u.Has v ∧
      ∀ e ∈ element, ∃ x, v.get e.path = .ok x := by
  obtain ⟨s, hs, hof, hcov, -⟩ := exists_addAll (.leaf u) hr
  obtain ⟨v, hv, ht, hp⟩ := hof.build hd
  refine ⟨v, ?_, ht, fun e he => hp _ (hcov e he)⟩
  refine bind_eq_ok.2 ⟨u, rfl, bind_eq_ok.2 ⟨s, hs, ?_⟩⟩
  cases count with
  | zero => rfl
  | succ n =>
    rw [if_neg (Nat.succ_ne_zero n)]
    exact bind_eq_ok.2 ⟨v, hv, rfl⟩

theorem length_of_constructItems {t : Ty} {element : List Encoding} {count : Nat}
    {items : List Value} (h : constructItems t element count = .ok items) :
    items.length = count := by
  obtain ⟨u, -, h⟩ := bind_eq_ok.1 h
  obtain ⟨sketch, -, h⟩ := bind_eq_ok.1 h
  by_cases hc : count = 0
  · rw [if_pos hc] at h
    cases h
    exact hc.symm
  · rw [if_neg hc] at h
    obtain ⟨z, -, h⟩ := bind_eq_ok.1 h
    cases h
    exact List.length_replicate

end Parley
