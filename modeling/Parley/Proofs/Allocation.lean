import Parley.Proofs.Registrations

/-!
# What is allocated is the least that has every path

The sketch of an encoding covers the paths of its entries, what lies on the way to them, and nothing
else. With the type that determines it, so the order of the entries does not matter. In its value an
array that is entered is as long as the highest position that is entered asks for, and what no path
goes through is a default.

* `Sketch.Of.add_cons` : what merging one step does.
* `Sketch.Tight` : no place was made that no path leads to.
* `Sketch.Of.covers_add`, `Sketch.Of.tight_add` : merging a path covers it and keeps a sketch tight.
* `Sketch.Of.ext` : a tight sketch of a type is determined by what it covers.
* `Sketch.Least`, `Sketch.Of.least` : the value of a tight sketch.
* `construct_least` : what is allocated for an encoding.
-/

namespace Parley

namespace Ty

/-! ## Parts of defaults -/

theorem default_member {t u : Ty} {s : Step} {x : Value} (hd : t.Distinct) (hs : t.step s = .ok u)
    (hx : t.default.member s = .ok x) : x = u.default := by
  cases s with
  | index i =>
    obtain rfl := step_index_eq_ok.1 hs
    obtain ⟨_, k, he, -, hk⟩ := Value.member_index_eq_ok.1 hx
    cases he
    cases hk
  | name n =>
    obtain ⟨kind, name, table, rfl, hn⟩ := step_name_eq_ok.1 hs
    obtain ⟨_, fields, he, hf⟩ := Value.member_name_eq_ok.1 hx
    cases he
    rw [Table.find?_ofList ((keys_defaults table).symm ▸ hd.1), find?_defaults, hn] at hf
    exact (Option.some.inj hf).symm

theorem default_get {t u : Ty} {p : Path} {x : Value} (hd : t.Distinct) (hp : t.follow p = .ok u)
    (hx : t.default.get p = .ok x) : x = u.default := by
  induction p generalizing t with
  | nil =>
    cases hp
    cases hx
    rfl
  | cons s p ih =>
    obtain ⟨t', hs, hp⟩ := follow_cons.1 hp
    obtain ⟨y, hy, hx⟩ := Value.get_cons.1 hx
    obtain rfl := default_member hd hs hy
    exact ih (hd.step hs) hp hx

end Ty

namespace Sketch

variable {full p q : Path} {t u : Ty} {s s' : Sketch} {step : Step}

/-! ## Places -/

/-- The place that one step leads to, if a path entered it. -/
def child? (s : Sketch) : Step → Option Sketch
  | .index i => i.toNat?.bind s.element?
  | .name n => s.field? n

theorem covers_cons : s.Covers (step :: p) ↔ ∃ c, s.child? step = some c ∧ c.Covers p := by
  cases step with
  | index i =>
    constructor
    · rintro ⟨k, c, rfl, hc⟩
      exact ⟨c, hc⟩
    · rintro ⟨c, hc, hp⟩
      obtain ⟨k, hk, hc⟩ := Option.bind_eq_some_iff.1 hc
      exact ⟨k, c, Int.mem_toNat?.1 hk, hc, hp⟩
  | name n => exact Iff.rfl

theorem covers_nil (s : Sketch) : s.Covers [] :=
  trivial

theorem child?_leaf (t : Ty) (step : Step) : (leaf t).child? step = none := by
  cases step with
  | index i => exact Option.bind_fun_none i.toNat?
  | name n => rfl

theorem not_covers_leaf : ¬ (leaf t).Covers (step :: p) := by
  rw [covers_cons, child?_leaf]
  rintro ⟨_, ⟨⟩, -⟩

theorem Of.child {c : Sketch} (h : Of t s) (hu : t.step step = .ok u)
    (hc : s.child? step = some c) : Of u c := by
  cases step with
  | index i =>
    obtain rfl := Ty.step_index_eq_ok.1 hu
    obtain ⟨_, elements, -, -, he, hget, -⟩ := h.elements
    obtain ⟨k, -, hc⟩ := Option.bind_eq_some_iff.1 hc
    exact he k c ((hget k).symm.trans hc)
  | name n =>
    obtain ⟨kind, name, table, rfl, hn⟩ := Ty.step_name_eq_ok.1 hu
    obtain ⟨fields, -, ht, he, hget, -⟩ := h.fields
    have hc : Table.find? n fields = some c := (hget n).symm.trans hc
    obtain rfl : u = c.type := Option.some.inj (hn.symm.trans (ht n c hc))
    exact he n c hc

/-- What a step is merged into: the place it leads to, or a new one. -/
theorem Of.getD_child (h : Of t s) (hu : t.step step = .ok u) :
    Of u ((s.child? step).getD (Sketch.leaf u)) :=
  of_getD fun _ hc => h.child hu hc

/-! ## Merging a path -/

theorem Of.add (h : Of t s) (ha : Sketch.add full p s = .ok s') : Of t s' := by
  obtain ⟨hp, u, hu⟩ := h.follow_of_add ha
  obtain ⟨w, hw, hof, -⟩ := merges_of_follow full hp hu s h
  cases hw.symm.trans ha
  exact hof

theorem child?_array {k : Nat} {child : Sketch} {size : Nat} {elements : List (Nat × Sketch)}
    (hget : ∀ j, s.element? j = Table.find? j elements) (hnone : ∀ n, s.field? n = none)
    (step : Step) :
    (array t size (Table.insert k child elements)).child? step =
      if .index k = step then some child else s.child? step := by
  cases step with
  | name n =>
    rw [if_neg (fun he => nomatch he)]
    exact (hnone n).symm
  | index i =>
    by_cases hi : (k : Int) = i
    · subst hi
      rw [if_pos rfl]
      exact Table.find?_insert_self k child elements
    · rw [if_neg (fun he => hi (Step.index.inj he)), child?, child?]
      refine Option.bind_congr fun j hj => ?_
      obtain rfl := Int.mem_toNat?.1 hj
      rw [hget, element?, Table.find?_insert_ne fun he => hi (congrArg Nat.cast he)]

theorem child?_record {n : String} {child : Sketch} {fields : List (String × Sketch)}
    (hget : ∀ m, s.field? m = Table.find? m fields) (hnone : ∀ j, s.element? j = none)
    (step : Step) :
    (record t (Table.insert n child fields)).child? step =
      if .name n = step then some child else s.child? step := by
  cases step with
  | index i =>
    rw [if_neg (fun he => nomatch he), child?, child?]
    exact Option.bind_congr fun j _ => (hnone j).symm
  | name m =>
    rw [child?, child?, hget, field?, Table.find?_insert]
    by_cases hm : n = m
    · rw [if_pos hm, if_pos (congrArg Step.name hm)]
    · rw [if_neg hm, if_neg (fun he => hm (Step.name.inj he))]

/-- What is left of a path merges into the place that its first step leads to; all others stay. -/
theorem Of.add_cons (h : Of t s) (ha : Sketch.add full (step :: p) s = .ok s') :
    ∃ u child, t.step step = .ok u ∧
      Sketch.add full p ((s.child? step).getD (Sketch.leaf u)) = .ok child ∧
      (∀ step', s'.child? step' = if step = step' then some child else s.child? step') ∧
      ∀ n, s'.size? = some n → ∃ k : Nat, step = .index k ∧ n = max (s.size?.getD 0) (k + 1) := by
  cases step with
  | index i =>
    obtain ⟨u, k, hu, rfl⟩ := element_of_add ha
    rw [h.type_eq] at hu
    obtain rfl := Ty.step_index_eq_ok.1 (show t.step (.index k) = .ok u from hu)
    have hk : position k = .ok k := position_eq_ok.2 rfl
    obtain ⟨elements, hget, hnone, hadd⟩ : ∃ elements : List (Nat × Sketch),
        (∀ j, s.element? j = Table.find? j elements) ∧ (∀ n, s.field? n = none) ∧
        Sketch.add full (.index k :: p) s = (do
          let child ← Sketch.add full p ((Table.find? k elements).getD (Sketch.leaf u))
          return Sketch.array (.array u) (max (s.size?.getD 0) (k + 1))
            (Table.insert k child elements)) := by
      cases h with
      | leaf =>
        refine ⟨[], fun _ => rfl, fun _ => rfl, ?_⟩
        simp only [Sketch.add, hk]
        rfl
      | array _ size elements ho hi hs =>
        refine ⟨elements, fun _ => rfl, fun _ => rfl, ?_⟩
        simp only [Sketch.add, hk]
        rfl
    rw [hadd, ← hget] at ha
    obtain ⟨child, hc, ha⟩ := bind_eq_ok.1 ha
    cases ha
    exact ⟨u, child, hu, hc, child?_array hget hnone, fun _ hs =>
      ⟨k, rfl, (Option.some.inj hs).symm⟩⟩
  | name n =>
    obtain ⟨u, hu⟩ := field_of_add ha
    rw [h.type_eq] at hu
    obtain ⟨kind, name, table, rfl, hn⟩ :=
      Ty.step_name_eq_ok.1 (show t.step (.name n) = .ok u from hu)
    obtain ⟨fields, -, -, -, hget, hnone, hadd⟩ := h.fields
    rw [hadd full n p u hn, ← hget] at ha
    obtain ⟨child, hc, ha⟩ := bind_eq_ok.1 ha
    cases ha
    exact ⟨u, child, hu, hc, child?_record hget hnone, fun _ hs => by cases hs⟩

theorem covers_getD {o : Option Sketch} :
    (o.getD (leaf t)).Covers p ↔ p = [] ∨ ∃ c, o = some c ∧ c.Covers p := by
  cases p with
  | nil => exact ⟨fun _ => Or.inl rfl, fun _ => trivial⟩
  | cons step p =>
    cases o with
    | none => exact ⟨fun h => absurd h not_covers_leaf, fun h => by simp at h⟩
    | some c => simp

/-- Merging a path covers it and what lies on the way to it, and nothing else. -/
theorem Of.covers_add (h : Of t s) (ha : Sketch.add full p s = .ok s') :
    s'.Covers q ↔ s.Covers q ∨ q <+: p := by
  induction p generalizing t s s' q with
  | nil =>
    obtain rfl : s = s' := by
      rw [show Sketch.add full [] s = .ok s by cases s <;> rfl] at ha
      exact Except.ok.inj ha
    rw [List.prefix_nil]
    exact ⟨Or.inl, fun h => h.elim id fun h => h ▸ covers_nil s⟩
  | cons step p ih =>
    obtain ⟨u, child, hu, hc, hchild, -⟩ := h.add_cons ha
    cases q with
    | nil => exact ⟨fun _ => Or.inl trivial, fun _ => trivial⟩
    | cons step' q =>
      rw [covers_cons, covers_cons, hchild, List.cons_prefix_cons]
      by_cases he : step = step'
      · subst he
        simp only [if_true, Option.some.injEq, exists_eq_left']
        rw [ih (h.getD_child hu) hc, covers_getD]
        constructor
        · rintro ((rfl | h) | h)
          · exact Or.inr ⟨trivial, List.nil_prefix⟩
          · exact Or.inl h
          · exact Or.inr ⟨trivial, h⟩
        · rintro (h | ⟨-, h⟩)
          · exact Or.inl (Or.inr h)
          · exact Or.inr h
      · rw [if_neg he]
        exact (or_iff_left fun h => he h.1.symm).symm

/-! ## Tight sketches -/

/-- No place was made that no path leads to: the last element of an array was entered, and so was
some part of anything but a leaf. -/
inductive Tight : Sketch → Prop
  | intro {s : Sketch}
      (hsize : ∀ n, s.size? = some n → ∃ k : Nat, n = k + 1 ∧ ∃ c, s.child? (.index k) = some c)
      (hentered : s = leaf s.type ∨ ∃ step c, s.child? step = some c)
      (hparts : ∀ step c, s.child? step = some c → Tight c) : Tight s

theorem tight_leaf (t : Ty) : Tight (leaf t) := by
  refine ⟨fun _ h => (nomatch h), Or.inl rfl, fun step c hc => ?_⟩
  exact absurd (covers_cons.2 ⟨c, hc, covers_nil c⟩) not_covers_leaf

theorem Tight.last (h : Tight s) {n : Nat} (hn : s.size? = some n) :
    ∃ k : Nat, n = k + 1 ∧ ∃ c, s.child? (.index k) = some c := by
  obtain ⟨hsize, -, -⟩ := h
  exact hsize n hn

theorem Tight.child {c : Sketch} (h : Tight s) (step : Step) (hc : s.child? step = some c) :
    Tight c := by
  obtain ⟨-, -, hparts⟩ := h
  exact hparts step c hc

theorem Tight.getD_child (h : Tight s) (u : Ty) : Tight ((s.child? step).getD (leaf u)) := by
  cases hc : s.child? step with
  | none => exact tight_leaf u
  | some c => exact h.child step hc

theorem Of.tight_add (h : Of t s) (hs : Tight s) (ha : Sketch.add full p s = .ok s') :
    Tight s' := by
  induction p generalizing t s s' with
  | nil =>
    rw [show Sketch.add full [] s = .ok s by cases s <;> rfl] at ha
    exact Except.ok.inj ha ▸ hs
  | cons step p ih =>
    obtain ⟨u, child, hu, hc, hchild, hsize⟩ := h.add_cons ha
    have hself : s'.child? step = some child := (hchild step).trans (if_pos rfl)
    refine ⟨fun n hn => ?_, Or.inr ⟨step, child, hself⟩, fun step' c hc' => ?_⟩
    · obtain ⟨k, rfl, rfl⟩ := hsize n hn
      by_cases hk : s.size?.getD 0 ≤ k + 1
      · exact ⟨k, Nat.max_eq_right hk, child, hself⟩
      · -- the array was longer before, and its last element is still there
        obtain ⟨m, hm⟩ : ∃ m, s.size? = some m :=
          Option.isSome_iff_exists.1 (by cases hm : s.size? <;> simp_all)
        obtain ⟨j, rfl, c, hc⟩ := hs.last hm
        rw [hm, Option.getD_some] at hk ⊢
        have hkj : Step.index k ≠ .index j := fun he => by
          have := Int.ofNat_inj.1 (Step.index.inj he)
          omega
        exact ⟨j, Nat.max_eq_left (Nat.le_of_not_le hk), c,
          (hchild _).trans ((if_neg hkj).trans hc)⟩
    · rw [hchild] at hc'
      split at hc'
      · cases hc'
        exact ih (h.getD_child hu) (hs.getD_child u) hc
      · exact hs.child step' hc'

/-! ## Sketches by what they cover -/

theorem Tight.eq_leaf (h : Tight s) (hnone : ∀ step, s.child? step = none) : s = leaf s.type := by
  obtain ⟨-, hentered, -⟩ := h
  refine hentered.resolve_right ?_
  rintro ⟨step, c, hc⟩
  exact nomatch (hnone step).symm.trans hc

theorem places_iff (step : Step) (hc : ∀ q, s.Covers q ↔ s'.Covers q) :
    s.child? step = none ↔ s'.child? step = none := by
  have := hc [step]
  simp only [covers_cons, covers_nil, and_true] at this
  rw [Option.eq_none_iff_forall_ne_some, Option.eq_none_iff_forall_ne_some]
  exact ⟨fun h c hc => (this.2 ⟨c, hc⟩).elim h, fun h c hc => (this.1 ⟨c, hc⟩).elim h⟩

theorem covers_iff {c c' : Sketch} (step : Step) (hc : ∀ q, s.Covers q ↔ s'.Covers q)
    (h : s.child? step = some c) (h' : s'.child? step = some c') (q : Path) :
    c.Covers q ↔ c'.Covers q := by
  have := hc (step :: q)
  simpa only [covers_cons, h, h', Option.some.injEq, exists_eq_left'] using this

theorem eq_of_places {o o' : Option Sketch} (h : o = none ↔ o' = none)
    (he : ∀ c c', o = some c → o' = some c' → c = c') : o = o' := by
  cases ho : o with
  | none => exact (h.1 ho).symm
  | some c =>
    cases ho' : o' with
    | none => exact nomatch ho.symm.trans (h.2 ho')
    | some c' => rw [he c c' ho ho']

/-- A tight sketch of a type is determined by what it covers. -/
theorem Of.ext (h : Of t s) (h' : Of t s') (hs : Tight s) (hs' : Tight s')
    (hc : ∀ q, s.Covers q ↔ s'.Covers q) : s = s' := by
  induction h generalizing s' with
  | leaf t =>
    obtain rfl := h'.type_eq
    refine (hs'.eq_leaf fun step => ?_).symm
    exact (places_iff step hc).1 (child?_leaf _ step)
  | array u size elements ho hi he ih =>
    cases h' with
    | leaf => exact hs.eq_leaf fun step => (places_iff step hc).2 (child?_leaf _ step)
    | array _ size' elements' ho' hi' he' =>
      obtain rfl : elements = elements' := ho.ext ho' fun k =>
        eq_of_places (places_iff (.index k) hc) fun c c' hk hk' =>
          ih k c hk (he' k c' hk') (hs.child (.index k) hk)
            (hs'.child (.index k) hk') (covers_iff (.index k) hc hk hk')
      -- each is as long as its last element, which the other one has too
      obtain ⟨k, rfl, c, hk⟩ := hs.last rfl
      obtain ⟨k', rfl, c', hk'⟩ := hs'.last rfl
      have := hi' k c hk
      have := hi k' c' hk'
      obtain rfl : k = k' := by omega
      rfl
  | record kind name table fields ho ht he ih =>
    cases h' with
    | leaf => exact hs.eq_leaf fun step => (places_iff step hc).2 (child?_leaf _ step)
    | record _ _ _ fields' ho' ht' he' =>
      obtain rfl : fields = fields' := ho.ext ho' fun n =>
        eq_of_places (places_iff (.name n) hc) fun c c' hn hn' => by
          have htype : c'.type = c.type := Option.some.inj ((ht' n c' hn').symm.trans (ht n c hn))
          exact ih n c hn (htype ▸ he' n c' hn') (hs.child (.name n) hn)
            (hs'.child (.name n) hn') (covers_iff (.name n) hc hn hn')
      rfl

/-! ## The value of a tight sketch -/

/-- A value of a type is no larger than a sketch asks for. -/
structure Least (t : Ty) (s : Sketch) (v : Value) : Prop where
  /-- An array that is entered is as long as its highest position that is entered asks for. -/
  lengths : ∀ q i, s.Covers (q ++ [.index i]) → ∃ (items : List Value) (m : Nat),
    v.get q = .ok (.array items) ∧ items.length = m + 1 ∧ s.Covers (q ++ [.index m]) ∧
      ∀ j : Int, s.Covers (q ++ [.index j]) → j ≤ m
  /-- A part that is not entered is a default. -/
  defaults : ∀ q u x, t.follow q = .ok u → v.get q = .ok x →
    (∀ step, ¬ s.Covers (q ++ [step])) → x = u.default

/-- A value is no larger than a sketch asks for when its parts are no larger than the places of the
sketch ask for. -/
theorem least_of_parts {v : Value} (hd : t.Distinct)
    (hroot : (∀ step, s.child? step = none) → v = t.default)
    (hsize : ∀ i c, s.child? (.index i) = some c → ∃ (items : List Value) (m : Nat),
      v = .array items ∧ items.length = m + 1 ∧ (∃ c, s.child? (.index m) = some c) ∧
        ∀ (j : Int) c, s.child? (.index j) = some c → j ≤ m)
    (hplace : ∀ step u c, t.step step = .ok u → s.child? step = some c →
      ∃ y, v.member step = .ok y ∧ Least u c y)
    (htype : ∀ step c, s.child? step = some c → ∃ u, t.step step = .ok u)
    (hgap : ∀ step u x, t.step step = .ok u → s.child? step = none → v.member step = .ok x →
      x = u.default) :
    Least t s v := by
  have hone {step : Step} : s.Covers [step] ↔ ∃ c, s.child? step = some c := by
    rw [covers_cons]
    exact exists_congr fun c => and_iff_left (covers_nil c)
  constructor
  · intro q i hq
    cases q with
    | nil =>
      obtain ⟨c, hc⟩ := hone.1 hq
      obtain ⟨items, m, rfl, hlen, hm, hmax⟩ := hsize i c hc
      exact ⟨items, m, rfl, hlen, hone.2 hm, fun j hj => (hone.1 hj).elim (hmax j)⟩
    | cons step q =>
      obtain ⟨c, hc, hq⟩ := covers_cons.1 hq
      obtain ⟨u, hu⟩ := htype step c hc
      obtain ⟨y, hy, hleast⟩ := hplace step u c hu hc
      obtain ⟨items, m, hget, hlen, hm, hmax⟩ := hleast.lengths q i hq
      refine ⟨items, m, Value.get_cons.2 ⟨y, hy, hget⟩, hlen, covers_cons.2 ⟨c, hc, hm⟩, ?_⟩
      intro j hj
      obtain ⟨c', hc', hj⟩ := covers_cons.1 hj
      cases hc.symm.trans hc'
      exact hmax j hj
  · intro q u x hu hx hq
    cases q with
    | nil =>
      cases hu
      cases hx
      refine hroot fun step => ?_
      cases hc : s.child? step with
      | none => rfl
      | some c => exact absurd (hone.2 ⟨c, hc⟩) (hq step)
    | cons step q =>
      obtain ⟨t', hs, hu⟩ := Ty.follow_cons.1 hu
      obtain ⟨y, hy, hx⟩ := Value.get_cons.1 hx
      cases hc : s.child? step with
      | none =>
        obtain rfl := hgap step t' y hs hc hy
        exact Ty.default_get (hd.step hs) hu hx
      | some c =>
        obtain ⟨y', hy', hleast⟩ := hplace step t' c hs hc
        cases hy.symm.trans hy'
        exact hleast.defaults q u x hu hx fun step' hq' => hq step' (covers_cons.2 ⟨c, hc, hq'⟩)

theorem least_leaf (hd : t.Distinct) : Least t (leaf t) t.default := by
  have hnone {step : Step} {c : Sketch} : (leaf t).child? step ≠ some c := by
    rw [child?_leaf]
    exact fun h => nomatch h
  exact least_of_parts hd (fun _ => rfl) (fun _ _ hc => absurd hc hnone)
    (fun _ _ _ _ hc => absurd hc hnone) (fun _ _ hc => absurd hc hnone)
    fun _ _ _ hu _ hx => Ty.default_member hd hu hx

/-- Elements that no path leads to are defaults, and there are no more than the last one needs. -/
theorem least_array {size : Nat} {elements : List (Nat × Sketch)} (ho : Table.Sorted elements)
    (hi : ∀ i s, Table.find? i elements = some s → i < size)
    (hb : ∀ i s, Table.find? i elements = some s → ∃ v, s.build = .ok v ∧ Least u s v)
    (hs : Tight (.array (.array u) size elements)) (hd : u.Distinct) :
    ∃ v, (array (.array u) size elements).build = .ok v ∧
      Least (.array u) (.array (.array u) size elements) v := by
  obtain ⟨given, hg, hk, hf⟩ := exists_mapM_snd ho.nodup hb
  rw [← buildElements_eq] at hg
  have hnone {i : Nat} (h : Table.find? i elements = none) : Table.find? i given = none :=
    Table.find?_eq_none_iff.2 (hk ▸ Table.find?_eq_none_iff.1 h)
  refine ⟨.array ((List.range size).map fun i => (Table.find? i given).getD u.default), ?_, ?_⟩
  · rw [Sketch.build]
    exact bind_eq_ok.2 ⟨u, rfl, bind_eq_ok.2 ⟨given, hg, rfl⟩⟩
  obtain ⟨m, rfl, c, hm⟩ := hs.last rfl
  refine least_of_parts hd (fun hroot => by cases (hroot (.index m)).symm.trans hm) ?_ ?_ ?_ ?_
  · intro i c hc
    refine ⟨_, m, rfl, by rw [List.length_map, List.length_range], ⟨_, hm⟩, fun j c hj => ?_⟩
    obtain ⟨k, hk, hc⟩ := Option.bind_eq_some_iff.1 hj
    obtain rfl := Int.mem_toNat?.1 hk
    have := hi k c hc
    omega
  · intro step u' c hu hc
    cases step with
    | name n => cases hc
    | index i =>
      cases hu
      obtain ⟨k, hk, hc⟩ := Option.bind_eq_some_iff.1 hc
      obtain rfl := Int.mem_toNat?.1 hk
      obtain ⟨y, hy, hleast⟩ := hf k c hc
      refine ⟨y, Value.member_index_eq_ok.2 ⟨_, k, rfl, rfl, ?_⟩, hleast⟩
      rw [List.getElem?_map, List.getElem?_range (hi k c hc), Option.map_some, hy, Option.getD_some]
  · intro step c hc
    cases step with
    | name n => cases hc
    | index i => exact ⟨u, rfl⟩
  · intro step u' x hu hc hx
    cases step with
    | name n => cases hu
    | index i =>
      cases hu
      obtain ⟨_, k, he, rfl, hk⟩ := Value.member_index_eq_ok.1 hx
      cases he
      rw [List.getElem?_map] at hk
      obtain ⟨j, hj, rfl⟩ := Option.map_eq_some_iff.1 hk
      obtain ⟨hlt, rfl⟩ := List.getElem?_eq_some_iff.1 hj
      rw [List.getElem_range, hnone hc, Option.getD_none]

theorem least_record {kind : RecordKind} {name : String} {table : List (String × Ty)}
    {fields : List (String × Sketch)} (ho : Table.Sorted fields)
    (ht : ∀ n s, Table.find? n fields = some s → Table.find? n table = some s.type)
    (hb : ∀ n s, Table.find? n fields = some s →
      ∃ v, s.build = .ok v ∧ s.type.Has v ∧ Least s.type s v)
    (hs : Tight (.record (.record kind name table) fields))
    (hd : (Ty.record kind name table).Distinct) :
    ∃ v, (record (.record kind name table) fields).build = .ok v ∧
      Least (.record kind name table) (.record (.record kind name table) fields) v := by
  obtain ⟨given, hg, hk, hf⟩ := exists_mapM_snd ho.nodup hb
  rw [← buildFields_eq] at hg
  have hgiven : ∀ n x, Table.find? n given = some x →
      ∃ u, Table.find? n table = some u ∧ u.Has x := by
    intro n x hx
    obtain ⟨s, hsn⟩ := Table.exists_find?_of_mem_keys (hk ▸ Table.mem_keys_of_find? hx)
    obtain ⟨z, hz, hty, -⟩ := hf n s hsn
    cases hx.symm.trans hz
    exact ⟨s.type, ht n s hsn, hty⟩
  obtain ⟨w, hw, -, hset, hkeep⟩ :=
    exists_setFields hd (Ty.has_default hd) (hk ▸ ho.nodup) hgiven
  refine ⟨w, ?_, least_of_parts hd (fun hroot => ?_) (fun i c hc => ?_) ?_ ?_ ?_⟩
  · rw [Sketch.build]
    exact bind_eq_ok.2 ⟨given, hg, hw⟩
  · cases hs.eq_leaf hroot
  · cases (Option.bind_fun_none i.toNat?).symm.trans hc
  · intro step u c hu hc
    cases step with
    | index i => cases hu
    | name n =>
      obtain ⟨_, _, _, he, hn⟩ := Ty.step_name_eq_ok.1 hu
      cases he
      obtain rfl : u = c.type := Option.some.inj (hn.symm.trans (ht n c hc))
      obtain ⟨y, hy, -, hleast⟩ := hf n c hc
      exact ⟨y, hset n y hy, hleast⟩
  · intro step c hc
    cases step with
    | index i => cases (Option.bind_fun_none i.toNat?).symm.trans hc
    | name n => exact ⟨c.type, Ty.step_name_eq_ok.2 ⟨kind, name, table, rfl, ht n c hc⟩⟩
  · intro step u x hu hc hx
    cases step with
    | index i => cases hu
    | name n =>
      obtain ⟨_, _, _, he, hn⟩ := Ty.step_name_eq_ok.1 hu
      cases he
      have hmissing : n ∉ Table.keys given := hk ▸ Table.find?_eq_none_iff.1 hc
      -- the default has the field, and no field that was put in its place is this one
      obtain ⟨y, hy⟩ : ∃ y, (Ty.record kind name table).default.member (.name n) = .ok y := by
        obtain ⟨_, he, -, -, hf⟩ := Ty.has_record.1 (Ty.has_default hd)
        obtain ⟨y, hy, -⟩ := hf.of_find? hn
        exact ⟨y, Value.member_name_eq_ok.2 ⟨_, _, he, hy⟩⟩
      cases hx.symm.trans (hkeep n y hmissing hy)
      exact Ty.default_member hd hu hy

theorem Of.least (h : Of t s) (hs : Tight s) (hd : t.Distinct) :
    ∃ v, s.build = .ok v ∧ Least t s v := by
  induction h with
  | leaf t => exact ⟨t.default, rfl, least_leaf hd⟩
  | array u size elements ho hi he ih =>
    exact least_array ho hi (fun k c hk => ih k c hk (hs.child (.index k) hk) hd) hs hd
  | record kind name table fields ho ht he ih =>
    refine least_record ho ht (fun n c hn => ?_) hs hd
    have hdc : c.type.Distinct := hd.2.of_find? (ht n c hn)
    obtain ⟨v, hv, hleast⟩ := ih n c hn (hs.child (.name n) hn) hdc
    obtain ⟨w, hw, hty, -⟩ := (he n c hn).build hdc
    cases hv.symm.trans hw
    exact ⟨v, hv, hty, hleast⟩

/-! ## The sketch of an encoding -/

theorem of_addAll {encoding : List Encoding} (h : Of t s) (hs : Tight s)
    (ha : encoding.foldlM (fun s e => Sketch.add e.path e.path s) s = .ok s') :
    Of t s' ∧ Tight s' ∧ ∀ q, s'.Covers q ↔ s.Covers q ∨ ∃ e ∈ encoding, q <+: e.path := by
  induction encoding generalizing s with
  | nil =>
    cases ha
    exact ⟨h, hs, fun q => by simp⟩
  | cons e rest ih =>
    rw [List.foldlM_cons] at ha
    obtain ⟨s₁, hs₁, ha⟩ := bind_eq_ok.1 ha
    obtain ⟨hof, htight, hcovers⟩ := ih (h.add hs₁) (h.tight_add hs hs₁) ha
    refine ⟨hof, htight, fun q => ?_⟩
    simp only [hcovers, h.covers_add hs₁, or_assoc, List.mem_cons, exists_eq_or_imp]

end Sketch

/-- Some entry is about the part at the path or about a part of it. -/
def Enters (encoding : List Encoding) (q : Path) : Prop :=
  ∃ e ∈ encoding, q <+: e.path

/-- The sketch of an encoding is tight and covers what is entered. -/
theorem of_ofEncoding {encoding : List Encoding} {t : Ty} {s : Sketch}
    (h : Sketch.ofEncoding encoding t = .ok s) :
    Sketch.Of t s ∧ s.Tight ∧ ∀ q, s.Covers q ↔ q = [] ∨ Enters encoding q := by
  obtain ⟨hof, htight, hcovers⟩ := Sketch.of_addAll (.leaf t) (Sketch.tight_leaf t) h
  refine ⟨hof, htight, fun q => (hcovers q).trans (or_congr_left ?_)⟩
  cases q with
  | nil => exact ⟨fun _ => rfl, fun _ => trivial⟩
  | cons step q => exact ⟨fun h => absurd h Sketch.not_covers_leaf, fun h => nomatch h⟩

theorem ofEncoding_congr {encoding encoding' : List Encoding} {t : Ty} {s : Sketch}
    (h : Sketch.ofEncoding encoding t = .ok s)
    (hr : ∀ e ∈ encoding', e.Resolves t)
    (he : ∀ q, Enters encoding' q ↔ Enters encoding q) :
    Sketch.ofEncoding encoding' t = .ok s := by
  obtain ⟨s', hs'⟩ := exists_ofEncoding_iff.2 hr
  obtain ⟨hof, htight, hcovers⟩ := of_ofEncoding h
  obtain ⟨hof', htight', hcovers'⟩ := of_ofEncoding hs'
  rw [hs', hof.ext hof' htight htight' fun q => by rw [hcovers, hcovers', he]]

/-- What is allocated for an encoding whose paths all lead somewhere in the type is the least value
of the type that has them all. The order of the entries does not matter. -/
theorem construct_least (encoding : List Encoding) (t : Ty) (hd : t.Distinct) :
    ((∃ s, Sketch.ofEncoding encoding t = .ok s) ↔ ∀ e ∈ encoding, e.Resolves t) ∧
    ∀ s, Sketch.ofEncoding encoding t = .ok s →
      ∃ v, s.build = .ok v ∧ construct encoding t = .ok v ∧ t.Has v ∧
        (∀ e ∈ encoding, ∃ x, v.get e.path = .ok x) ∧
        (∀ q i, Enters encoding (q ++ [.index i]) → ∃ (items : List Value) (m : Nat),
          v.get q = .ok (.array items) ∧ items.length = m + 1 ∧
            Enters encoding (q ++ [.index m]) ∧
            ∀ j : Int, Enters encoding (q ++ [.index j]) → j ≤ m) ∧
        (∀ q u x, t.follow q = .ok u → v.get q = .ok x →
          (∀ step, ¬ Enters encoding (q ++ [step])) → x = u.default) ∧
        ∀ encoding' : List Encoding, encoding'.Perm encoding →
          Sketch.ofEncoding encoding' t = .ok s ∧ construct encoding' t = .ok v := by
  refine ⟨exists_ofEncoding_iff, fun s hs => ?_⟩
  have hr : ∀ e ∈ encoding, e.Resolves t := exists_ofEncoding_iff.1 ⟨s, hs⟩
  obtain ⟨hof, htight, hcovers⟩ := of_ofEncoding hs
  have henters {q : Path} {step : Step} :
      s.Covers (q ++ [step]) ↔ Enters encoding (q ++ [step]) := by
    rw [hcovers]
    exact or_iff_right fun h => by simp at h
  obtain ⟨v, hv, hleast⟩ := hof.least htight hd
  obtain ⟨w, hw, hty, hget⟩ := exists_construct hd hr
  obtain rfl : v = w := Except.ok.inj (hv.symm.trans ((bind_of_ok hs _).symm.trans hw))
  refine ⟨v, hv, hw, hty, hget, fun q i hq => ?_, fun q u x hu hx hq => ?_, fun encoding' hp => ?_⟩
  · simpa only [henters] using hleast.lengths q i (henters.2 hq)
  · exact hleast.defaults q u x hu hx fun step h => hq step (henters.1 h)
  · have hs' : Sketch.ofEncoding encoding' t = .ok s :=
      ofEncoding_congr hs (fun e he => hr e (hp.mem_iff.1 he)) fun q => by
        simp only [Enters, hp.mem_iff]
    exact ⟨hs', (bind_of_ok hs' _).trans hv⟩

/-- Paths that overlap, nest and leave gaps: of three elements the middle one is a default. -/
theorem construct_least_request :
    let t : Ty := .record .value "Request" [("name", .record .reference "Name"
      [("first", .string), ("last", .string)]), ("groups", .array (.array .string)),
      ("tags", .array .string)]
    let encoding : List Encoding := [.base .zcstring [.name "groups", .index 2, .index 1],
      .base .zcstring [.name "groups", .index 0, .index 0], .array [.name "groups"] [],
      .base .zcstring [.name "name", .name "last"]]
    let v : Value := .record .value [("groups", .array [.array [.string ""], .array [],
      .array [.string "", .string ""]]),
      ("name", .record .reference [("first", .string ""), ("last", .string "")]),
      ("tags", .array [])]
    t.Distinct ∧ (∀ e ∈ encoding, e.Resolves t) ∧
      ∃ s, Sketch.ofEncoding encoding t = .ok s ∧ s.build = .ok v ∧ t.Has v ∧
        (∃ items, v.get [.name "groups"] = .ok (.array items) ∧ items.length = 3) ∧
        v.get [.name "groups", .index 1] = .ok (Ty.array .string).default ∧
        Sketch.ofEncoding encoding.reverse t = .ok s ∧ construct encoding.reverse t = .ok v := by
  intro t encoding v
  have hd : t.Distinct := by decide
  obtain ⟨hresolves, hsketch⟩ := construct_least encoding t hd
  obtain ⟨w, hw, hc, hty, -, hlengths, hdefaults, hperm⟩ := hsketch _ rfl
  obtain rfl : v = w := Except.ok.inj ((show construct encoding t = .ok v from rfl).symm.trans hc)
  obtain ⟨items, _, hget, -⟩ := hlengths [.name "groups"] 2 ⟨_, List.mem_cons_self, [.index 1], rfl⟩
  have hgap (step : Step) : ¬ Enters encoding ([.name "groups", .index 1] ++ [step]) := by
    simp [Enters, encoding, Encoding.path]
  refine ⟨hd, hresolves.1 ⟨_, rfl⟩, _, rfl, hw, hty, ⟨items, hget, by cases hget; rfl⟩, ?_,
    hperm _ (List.reverse_perm _)⟩
  exact congrArg Except.ok (hdefaults [.name "groups", .index 1] _ (.array []) rfl rfl hgap)

end Parley
